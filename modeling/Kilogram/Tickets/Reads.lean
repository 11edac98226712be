import Kilogram.Tickets.OpaqueStore

/-!
# Accounting and reads of the ticket store

What a call does to the tables is one of four changes.
-/

namespace Kilogram.Tickets
open Std Kilogram.Mailbox
open Except (ensure_eq_ok ok_iff pure_eq_ok)
variable {S : OpaqueStore} {t t' : Tables} {channel : Id} {generation : Nat} {body : Bytes} {now : Nat}

theorem decode_eq_ok {r r' : StoredOpaquePublication} : r.decode = .ok r' ↔ r.validate = .ok () ∧ r' = r :=
  validated_eq_ok

/-- What a record adds to the total. -/
def bodyBytes (_ : Id) (r : StoredOpaquePublication) : Nat := r.body.length

/-- The total is exact, the limits are kept, and every record decodes. -/
structure Sound (S : OpaqueStore) (t : Tables) : Prop where
  exact : t.totalBodyBytes = Maps.weight bodyBytes t.records
  bytes : t.totalBodyBytes ≤ S.config.maxTotalBytes
  channels : t.records.size ≤ S.config.maxChannels
  decodes : ∀ (c : Id) (r : StoredOpaquePublication), t.records[c]? = some r → r.validate = .ok ()

namespace OpaqueStore

theorem limits (S : OpaqueStore) : 0 < S.config.retentionSeconds ∧ S.config.maxTotalBytes ≤ 2 ^ 40 := by
  have h := S.valid
  simp only [StoreConfig.validate, ok_iff, ensure_eq_ok] at h
  obtain ⟨_, hretention, _, -, _, -, htotal⟩ := h
  exact ⟨Nat.lt_of_lt_of_le (by decide) hretention.1, htotal.2.trans (by decide)⟩

/-- What a call can do to the tables. -/
inductive Change (S : OpaqueStore) (now : Nat) (t : Tables) : Tables → Prop
  | none : Change S now t t
  | placed (channel : Id) (incoming : StoredOpaquePublication) (total : Nat)
      (hvalid : incoming.validate = .ok ()) (hfresh : ¬ incoming.expiredAt now)
      (hnewer : ∀ current, t.records[channel]? = some current → current.generation < incoming.generation)
      (hroom : t.records[channel]? = none → t.records.size < S.config.maxChannels)
      (htotal : total = t.totalBodyBytes - (t.records[channel]?).elim 0 (bodyBytes channel) + incoming.body.length)
      (hlimit : total ≤ S.config.maxTotalBytes) :
      Change S now t ⟨t.records.insert channel incoming, total⟩
  | removed (channel : Id) (current : StoredOpaquePublication) (hat : t.records[channel]? = some current)
      (hexpired : current.expiredAt now) :
      Change S now t ⟨t.records.erase channel, t.totalBodyBytes - current.body.length⟩
  | cleaned : Change S now t (cleanup now t).2

variable {r : StoredOpaquePublication} {calls : List Call}

theorem new_eq_ok {retention : Nat} (h : StoredOpaquePublication.new generation body now retention = .ok r) :
    r = ⟨recordVersion, generation, now, now + retention, body⟩ := by
  simp only [StoredOpaquePublication.new, ok_iff] at h
  obtain ⟨_, -, _, -, _, -, rfl⟩ := h
  rfl

theorem sum_le_of_saturatingAdd {a b n : Nat} (h : ¬ saturatingAdd 64 a b > n) (hn : n ≤ 2 ^ 40) :
    saturatingAdd 64 a b = a + b ∧ a + b ≤ n := by
  unfold saturatingAdd at h ⊢
  omega

/-- What an accepted or refused publication leaves behind. -/
theorem put_cases {outcome : PutOutcome} (h : S.put channel generation body now t = .ok (outcome, t')) :
    ∃ incoming : StoredOpaquePublication, incoming.generation = generation ∧ incoming.body = body ∧
      incoming.validate = .ok () ∧ ¬ incoming.expiredAt now ∧ Change S now t t' ∧
      (outcome = .created ∨ outcome = .replaced → t'.records[channel]? = some incoming ∧
        ∀ current, t.records[channel]? = some current → current.generation ≠ generation) ∧
      (outcome = .alreadyPresent → t' = t ∧ ∃ current, t.records[channel]? = some current ∧
        current.validate = .ok () ∧ current.generation = generation ∧ current.body = body) := by
  obtain ⟨hretention, hmax⟩ := S.limits
  simp only [put, ok_iff] at h
  obtain ⟨_, -, incoming, hnew, _, hvalid, hrest⟩ := h
  obtain rfl := new_eq_ok hnew
  have hfresh : ¬ (⟨recordVersion, generation, now, now + S.config.retentionSeconds, body⟩ :
      StoredOpaquePublication).expiredAt now := by
    change ¬ now + S.config.retentionSeconds ≤ now
    omega
  refine ⟨_, rfl, rfl, hvalid, hfresh, ?_⟩
  cases hat : t.records[channel]? with
  | none =>
    simp only [hat] at hrest
    split_ifs at hrest with hsize hroom
    · cases pure_eq_ok.mp hrest
      exact ⟨.none, by simp, by simp⟩
    · cases pure_eq_ok.mp hrest
      exact ⟨.none, by simp, by simp⟩
    · cases pure_eq_ok.mp hrest
      obtain ⟨hsum, hle⟩ := sum_le_of_saturatingAdd hroom hmax
      refine ⟨?_, fun _ => ⟨by simp, by simp⟩, by simp⟩
      refine .placed channel _ _ hvalid hfresh (by simp [hat]) (fun _ => Nat.not_le.mp hsize) ?_ ?_
      · rw [hsum, hat]
        rfl
      · rw [hsum]
        exact hle
  | some current =>
    simp only [hat, ok_iff, decode_eq_ok] at hrest
    obtain ⟨decoded, ⟨hdecodes, hdecoded⟩, hrest⟩ := hrest
    subst hdecoded
    split_ifs at hrest with hconflict hsame hroom
    · cases pure_eq_ok.mp hrest
      exact ⟨.none, by simp, by simp⟩
    · cases pure_eq_ok.mp hrest
      refine ⟨.none, by simp, fun _ => ⟨rfl, decoded, rfl, hdecodes, hsame.symm, ?_⟩⟩
      by_contra hbody
      exact hconflict (.inr ⟨hsame, fun h => hbody h.symm⟩)
    · cases pure_eq_ok.mp hrest
      exact ⟨.none, by simp, by simp⟩
    · cases pure_eq_ok.mp hrest
      obtain ⟨hsum, hle⟩ := sum_le_of_saturatingAdd hroom hmax
      refine ⟨?_, fun _ => ⟨by simp, ?_⟩, by simp⟩
      rotate_left
      · rintro _ ⟨⟩
        exact Ne.symm hsame
      refine .placed channel _ _ hvalid hfresh (fun current' h => ?_) (by simp [hat]) ?_ ?_
      · cases hat.symm.trans h
        exact Nat.lt_of_le_of_ne (Nat.not_lt.mp fun h => hconflict (.inl h)) (Ne.symm hsame)
      · rw [hsum, hat]
        rfl
      · rw [hsum]
        exact hle

theorem removeIfExpired_change (channel : Id) (now : Nat) (t : Tables) :
    Change S now t (removeIfExpired channel now t) := by
  unfold removeIfExpired
  split
  · exact .none
  · next current hat =>
    split
    · exact .none
    · next current' hdecode =>
      obtain ⟨-, rfl⟩ := decode_eq_ok.mp hdecode
      split_ifs with hexpired
      · exact .removed channel _ hat hexpired
      · exact .none

/-- A read gives the record that is there, if it has not expired. -/
theorem get_eq_ok {value : Option StoredValue} (h : get channel now t = .ok (value, t')) :
    Change S now t t' ∧ ∀ v, value = some v → t' = t ∧ ∃ current, t.records[channel]? = some current ∧
      v.generation = current.generation ∧ v.body = current.body := by
  unfold get at h
  cases hat : t.records[channel]? with
  | none =>
    simp only [hat] at h
    cases pure_eq_ok.mp h
    exact ⟨.none, by simp⟩
  | some current =>
    simp only [hat, ok_iff, decode_eq_ok] at h
    obtain ⟨_, ⟨-, rfl⟩, h⟩ := h
    split_ifs at h with hexpired
    · cases pure_eq_ok.mp h
      exact ⟨removeIfExpired_change channel now t, by simp⟩
    · cases pure_eq_ok.mp h
      refine ⟨.none, fun v hv => ?_⟩
      cases hv
      exact ⟨rfl, _, rfl, rfl, rfl⟩

theorem get_of_live (hat : t.records[channel]? = some r) (hvalid : r.validate = .ok ()) (hlive : ¬ r.expiredAt now) :
    get channel now t = .ok (some ⟨r.generation, r.expiresAtUnixSeconds, r.body⟩, t) := by
  unfold get
  simp only [hat]
  rw [Except.bind_of_ok (decode_eq_ok.mpr ⟨hvalid, rfl⟩), if_neg hlive]
  rfl

theorem get_of_expired (hat : t.records[channel]? = some r) (hvalid : r.validate = .ok ())
    (hexpired : r.expiredAt now) : get channel now t = .ok (none, removeIfExpired channel now t) := by
  unfold get
  simp only [hat]
  rw [Except.bind_of_ok (decode_eq_ok.mpr ⟨hvalid, rfl⟩), if_pos hexpired]
  rfl

theorem serve_change (call : Call) (t : Tables) : ∃ now, Change S now t (S.service.serve call t).2 := by
  cases call with
  | put channel generation body now =>
    refine ⟨now, ?_⟩
    change Change S now t (commit (S.put channel generation body now) t).2
    unfold commit
    split
    · next outcome t' h =>
      obtain ⟨_, -, -, -, -, hchange, -⟩ := put_cases h
      exact hchange
    · exact .none
  | get channel now =>
    refine ⟨now, ?_⟩
    change Change S now t (commit (get channel now) t).2
    unfold commit
    split
    · next value t' h => exact (get_eq_ok h).1
    · exact .none
  | cleanup now => exact ⟨now, .cleaned⟩
  | removeIfExpired channel now => exact ⟨now, removeIfExpired_change channel now t⟩

theorem get_live (t : Tables) (now : Nat) (c : Id) :
    (live now t)[c]? = (t.records[c]?).filter fun r => r.decode.isOk && decide (¬ r.expiredAt now) :=
  TreeMap.getElem?_filter'

theorem weight_live_le (t : Tables) (now : Nat) :
    Maps.weight bodyBytes (live now t) ≤ Maps.weight bodyBytes t.records := by
  unfold Maps.weight live
  rw [TreeMap.toList_filter]
  exact (List.filter_sublist.map _).sum_le_sum fun _ _ => Nat.zero_le _

theorem foldl_saturatingAdd {l : List (Id × StoredOpaquePublication)} {n : Nat}
    (h : n + (l.map fun e => bodyBytes e.1 e.2).sum ≤ 2 ^ 40) :
    l.foldl (fun n e => saturatingAdd 64 n e.2.body.length) n = n + (l.map fun e => bodyBytes e.1 e.2).sum := by
  induction l generalizing n with
  | nil => simp
  | cons e l ih =>
    simp only [List.map_cons, List.sum_cons] at h
    have hstep : saturatingAdd 64 n e.2.body.length = n + bodyBytes e.1 e.2 := by
      unfold saturatingAdd
      exact min_eq_left (by unfold bodyBytes at h; omega)
    rw [List.foldl_cons, hstep, ih (by omega), List.map_cons, List.sum_cons]
    omega

theorem sound_of_change (h : Sound S t) (hchange : Change S now t t') : Sound S t' := by
  cases hchange with
  | none => exact h
  | placed channel incoming total hvalid hfresh hnewer hroom htotal hlimit =>
    refine ⟨?_, hlimit, ?_, fun c r hr => ?_⟩
    · have hweight := Maps.weight_insert bodyBytes t.records channel incoming
      have hexact := h.exact
      have hle : (t.records[channel]?).elim 0 (bodyBytes channel) ≤ Maps.weight bodyBytes t.records := by
        cases hat : t.records[channel]? with
        | none => exact Nat.zero_le _
        | some current => exact Maps.le_weight bodyBytes hat
      change total = Maps.weight bodyBytes (t.records.insert channel incoming)
      change _ = _ + incoming.body.length at hweight
      omega
    · cases hat : t.records[channel]? with
      | none =>
        rw [Maps.size_insert_of_none t.records incoming hat]
        exact hroom hat
      | some current =>
        rw [Maps.size_insert_of_get t.records incoming hat]
        exact h.channels
    · exact Maps.forall_insert h.decodes hvalid c r hr
  | removed channel current hat hexpired =>
    have hweight := Maps.weight_erase_of_some bodyBytes hat
    refine ⟨?_, ?_, ?_, fun c r hr => ?_⟩
    · have hexact := h.exact
      change t.totalBodyBytes - current.body.length = Maps.weight bodyBytes (t.records.erase channel)
      change _ + current.body.length = _ at hweight
      omega
    · exact (Nat.sub_le _ _).trans h.bytes
    · exact TreeMap.size_erase_le.trans h.channels
    · exact Maps.forall_erase h.decodes c r hr
  | cleaned =>
    have hle := weight_live_le t now
    have hbytes := h.bytes
    have hexact := h.exact
    have hmax := S.limits.2
    have hsum : (cleanup now t).2.totalBodyBytes = Maps.weight bodyBytes (live now t) := by
      change List.foldl _ 0 _ = _
      rw [foldl_saturatingAdd, Nat.zero_add]
      · rfl
      · change 0 + Maps.weight bodyBytes (live now t) ≤ _
        omega
    refine ⟨hsum, ?_, TreeMap.size_filter_le_size.trans h.channels, fun c r hr => ?_⟩
    · rw [hsum]
      omega
    · change (live now t)[c]? = some r at hr
      rw [get_live, Option.filter_eq_some_iff] at hr
      exact h.decodes c r hr.1

theorem sound_after (calls : List Call) : Sound S (S.service.after calls) := by
  refine Service.invariant ?_ (fun t call h => ?_) calls
  · refine ⟨?_, Nat.zero_le _, Nat.zero_le _, fun c r hr => ?_⟩
    · exact (Maps.weight_empty bodyBytes).symm
    · change (∅ : TreeMap Id StoredOpaquePublication)[c]? = some r at hr
      simp at hr
  · obtain ⟨now, hchange⟩ := serve_change (S := S) call t
    exact sound_of_change h hchange

/-- The second record can follow the first on a channel. -/
def Follows (r r' : StoredOpaquePublication) : Prop :=
  r.generation ≤ r'.generation ∧ (r.generation = r'.generation → r.body = r'.body)

theorem Follows.trans {r' r'' : StoredOpaquePublication} (h : Follows r r') (h' : Follows r' r'') :
    Follows r r'' := by
  refine ⟨h.1.trans h'.1, fun heq => ?_⟩
  have h₁ := h.1
  have h₂ := h'.1
  rw [h.2 (by omega), h'.2 (by omega)]

theorem Change.follows {r' : StoredOpaquePublication} (hchange : Change S now t t')
    (hr : t.records[channel]? = some r) (hr' : t'.records[channel]? = some r') : Follows r r' := by
  have hsame (h : t.records[channel]? = some r') : Follows r r' := by
    cases hr.symm.trans h
    exact ⟨le_rfl, fun _ => rfl⟩
  cases hchange with
  | none => exact hsame hr'
  | placed c incoming total hvalid hfresh hnewer hroom htotal hlimit =>
    change (t.records.insert c incoming)[channel]? = some r' at hr'
    rw [Maps.get_insert] at hr'
    split_ifs at hr' with hc
    · subst hc
      cases hr'
      have hlt := hnewer r hr
      exact ⟨hlt.le, fun h => absurd h hlt.ne⟩
    · exact hsame hr'
  | removed c current hat hexpired =>
    change (t.records.erase c)[channel]? = some r' at hr'
    rw [Maps.get_erase] at hr'
    split_ifs at hr'
    exact hsame hr'
  | cleaned =>
    change (live now t)[channel]? = some r' at hr'
    rw [get_live, Option.filter_eq_some_iff] at hr'
    exact hsame hr'.1

/-- While a channel keeps a record, its records follow one another. -/
theorem follows_while_kept {later : List Call} (hr : (S.service.after calls).records[channel]? = some r)
    (hkept : ∀ mid rest, later = mid ++ rest → (S.service.after (calls ++ mid)).records[channel]? ≠ none) :
    ∃ r', (S.service.after (calls ++ later)).records[channel]? = some r' ∧ Follows r r' := by
  refine Service.since (I := fun t : Tables => ∃ r', t.records[channel]? = some r' ∧ Follows r r')
    ⟨r, hr, le_rfl, fun _ => rfl⟩ ?_
  rintro mid call rest rfl ⟨r', hr', hfollows⟩
  have hnext := hkept (mid ++ [call]) rest (by simp)
  rw [← List.append_assoc, Service.after_concat] at hnext
  obtain ⟨r'', hr''⟩ := Option.ne_none_iff_exists'.mp hnext
  obtain ⟨now, hchange⟩ := serve_change (S := S) call (S.service.after (calls ++ mid))
  exact ⟨r'', hr'', hfollows.trans (hchange.follows hr' hr'')⟩

/-- A read that answered with a value found its record and left it. -/
theorem record_of_answer {value : StoredValue}
    (h : S.service.answer calls (.get channel now) = .got (.ok (some value))) :
    S.service.after (calls ++ [.get channel now]) = S.service.after calls ∧
      ∃ r, (S.service.after calls).records[channel]? = some r ∧ value.generation = r.generation ∧
        value.body = r.body := by
  have hok : (commit (get channel now) (S.service.after calls)).1 = .ok (some value) := Answer.got.inj h
  obtain ⟨-, hvalue⟩ := get_eq_ok (S := S) (of_commit_eq_ok hok)
  rw [Service.after_concat]
  exact hvalue value rfl

theorem read_of_put {outcome : PutOutcome}
    (hput : S.service.answer calls (.put channel generation body now) = .put (.ok outcome))
    (houtcome : outcome = .created ∨ outcome = .replaced ∨ outcome = .alreadyPresent) :
    (∃ expires, S.service.answer (calls ++ [.put channel generation body now]) (.get channel now) =
      .got (.ok (some ⟨generation, expires, body⟩))) ↔
      ∀ current, (S.service.after calls).records[channel]? = some current → current.generation = generation →
        current.body = body → ¬ current.expiredAt now := by
  have hok : (commit (S.put channel generation body now) (S.service.after calls)).1 = .ok outcome :=
    Answer.put.inj hput
  have hread {r : StoredOpaquePublication} (hgeneration : r.generation = generation)
      (hbody : r.body = body) (hvalid : r.validate = .ok ()) (hlive : ¬ r.expiredAt now)
      (hat : (commit (S.put channel generation body now) (S.service.after calls)).2.records[channel]? = some r) :
      ∃ expires, S.service.answer (calls ++ [.put channel generation body now]) (.get channel now) =
        .got (.ok (some ⟨generation, expires, body⟩)) := by
    subst hgeneration hbody
    refine ⟨r.expiresAtUnixSeconds, ?_⟩
    unfold Service.answer
    rw [Service.after_concat]
    exact congrArg (fun r => Answer.got r.1) (commit_of_ok (get_of_live hat hvalid hlive))
  obtain ⟨incoming, hgeneration, hbody, hvalid, hfresh, -, hwritten, hpresent⟩ := put_cases (of_commit_eq_ok hok)
  by_cases hpresence : outcome = .alreadyPresent
  · obtain ⟨hsame, current, hat, hdecodes, hcurrent, hcurrentBody⟩ := hpresent hpresence
    constructor
    · rintro ⟨expires, hgot⟩ current' hat' - - hexpired
      cases hat.symm.trans hat'
      unfold Service.answer at hgot
      rw [Service.after_concat] at hgot
      have hnone : (commit (get channel now) (commit (S.put channel generation body now)
          (S.service.after calls)).2).1 = .ok none := by
        rw [hsame, commit_of_ok (get_of_expired hat hdecodes hexpired)]
      cases hnone.symm.trans (Answer.got.inj hgot)
    · intro hlive
      exact hread hcurrent hcurrentBody hdecodes (hlive current hat hcurrent hcurrentBody) (by rw [hsame]; exact hat)
  · obtain ⟨hat, hother⟩ := hwritten (houtcome.imp_right fun h => h.resolve_right hpresence)
    exact iff_of_true (hread hgeneration hbody hvalid hfresh hat) fun current hcurrent hsame =>
      absurd hsame (hother current hcurrent)

/-- At every moment the total is exact and within the limits, and so is the number of channels. What was
put is read back at the same time, exactly if it was not there already, with the same generation and body,
and expired.
Later reads of a channel give no older generation, and no other body for the same one, as long as the
channel keeps a record. -/
theorem exact_total_and_monotone_reads (S : OpaqueStore) (calls : List Call) :
    ((S.service.after calls).totalBodyBytes = Maps.weight (fun _ r => r.body.length) (S.service.after calls).records ∧
      (S.service.after calls).totalBodyBytes ≤ S.config.maxTotalBytes ∧
      (S.service.after calls).records.size ≤ S.config.maxChannels) ∧
    (∀ channel generation body now outcome,
      S.service.answer calls (.put channel generation body now) = .put (.ok outcome) →
      outcome = .created ∨ outcome = .replaced ∨ outcome = .alreadyPresent →
      ((∃ expires, S.service.answer (calls ++ [.put channel generation body now]) (.get channel now) =
        .got (.ok (some ⟨generation, expires, body⟩))) ↔
        ∀ current, (S.service.after calls).records[channel]? = some current → current.generation = generation →
          current.body = body → ¬ current.expiredAt now)) ∧
    ∀ channel now now' later value value', S.service.answer calls (.get channel now) = .got (.ok (some value)) →
      (∀ mid rest, later = mid ++ rest →
        (S.service.after (calls ++ [.get channel now] ++ mid)).records[channel]? ≠ none) →
      S.service.answer (calls ++ [.get channel now] ++ later) (.get channel now') = .got (.ok (some value')) →
      value.generation ≤ value'.generation ∧ (value.generation = value'.generation → value.body = value'.body) := by
  have hsound := sound_after (S := S) calls
  refine ⟨⟨hsound.exact, hsound.bytes, hsound.channels⟩, fun _ _ _ _ _ => read_of_put, ?_⟩
  intro channel now now' later value value' hget hkept hget'
  obtain ⟨hsame, r, hr, hgeneration, hbody⟩ := record_of_answer hget
  obtain ⟨-, r', hr', hgeneration', hbody'⟩ := record_of_answer hget'
  rw [← hsame] at hr
  obtain ⟨r'', hr'', hfollows⟩ := follows_while_kept hr hkept
  cases hr''.symm.trans hr'
  rw [hgeneration, hgeneration', hbody, hbody']
  exact hfollows

section Samples

/-- Room for two channels; records live for half a minute. -/
def sampleStore : OpaqueStore := ⟨⟨30, 8, 2, 8⟩, by decide⟩

/-- The channel is put, put again as it is and replaced, and read after each, all within the retention. -/
theorem exact_total_and_monotone_reads_sample :
    (∃ expires, sampleStore.service.answer [.put 1 1 [7] 0, .put 1 1 [7] 5] (.get 1 5) =
      .got (.ok (some ⟨1, expires, [7]⟩))) ∧
    (∃ value value', sampleStore.service.answer [.put 1 1 [7] 0] (.get 1 5) = .got (.ok (some value)) ∧
      sampleStore.service.answer ([.put 1 1 [7] 0] ++ [.get 1 5] ++ [.put 1 2 [8] 10]) (.get 1 10) =
        .got (.ok (some value')) ∧ value.generation ≤ value'.generation) ∧
    (sampleStore.service.after [.put 1 1 [7] 0, .put 1 2 [8] 10]).totalBodyBytes ≤ 8 := by
  have hfirst := exact_total_and_monotone_reads sampleStore [.put 1 1 [7] 0]
  have hboth := exact_total_and_monotone_reads sampleStore [.put 1 1 [7] 0, .put 1 2 [8] 10]
  refine ⟨(hfirst.2.1 1 1 [7] 5 .alreadyPresent (by decide +kernel) (by decide)).mpr ?_,
    ⟨⟨1, 30, [7]⟩, ⟨2, 40, [8]⟩, by decide +kernel, by decide +kernel, ?_⟩, hboth.1.2.1⟩
  · have hat : (sampleStore.service.after [.put 1 1 [7] 0]).records[(1 : Id)]? = some ⟨recordVersion, 1, 0, 30, [7]⟩ := rfl
    intro current hcurrent _ _
    cases hat.symm.trans hcurrent
    decide
  · refine (hfirst.2.2 1 5 10 [.put 1 2 [8] 10] ⟨1, 30, [7]⟩ ⟨2, 40, [8]⟩ (by decide +kernel) ?_
      (by decide +kernel)).1
    intro mid rest hsplit
    rcases List.singleton_eq_append_iff.mp hsplit with ⟨rfl, -⟩ | ⟨rfl, -⟩ <;> decide +kernel

/-- A record is offered again just when it expires: it is said to be present, and is not read. -/
theorem present_but_expired :
    sampleStore.service.answer [.put 1 1 [7] 0] (.put 1 1 [7] 30) = .put (.ok .alreadyPresent) ∧
      sampleStore.service.answer [.put 1 1 [7] 0, .put 1 1 [7] 30] (.get 1 30) = .got (.ok none) := by
  decide +kernel

end Samples
end OpaqueStore
end Kilogram.Tickets
