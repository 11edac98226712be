import Kilogram.Lib.Chain
import Kilogram.Mailbox.Types
import Mathlib.Data.Prod.Lex

/-!
# Selection of mailbox providers

Offers with enough work are ranked, corroborated ones first.
-/

namespace Kilogram.Mailbox
open Except (ensure_of bind_eq_ok pure_eq_ok)

def maxMailboxStorageOfferAdmissionWorkBits : Nat := 20
def maxProviderSelection : Nat := 8
def minAuthenticatedProviderObservationsForPreference : Nat := 1

inductive MailboxProviderLocalPathDomainKind where
  | directRemoteIp
  | relayOrigin
  deriving DecidableEq

structure VerifiedProviderPathDomain where
  kind : MailboxProviderLocalPathDomainKind
  (derivationEpoch tag : Id)
  deriving DecidableEq

structure MailboxProviderOffer where
  (offerId transportIdentity storeKey : Id)
  (admissionWorkBits authenticatedObservationCount : Nat)
  verifiedPathDomain : Option VerifiedProviderPathDomain
  deriving DecidableEq

namespace MailboxProviderOffer

/-- Both paths are known, and are the same. -/
def SharesVerifiedPathDomainWith (offer other : MailboxProviderOffer) : Prop :=
  offer.verifiedPathDomain ≠ none ∧ offer.verifiedPathDomain = other.verifiedPathDomain
  deriving Decidable

/-- No authenticated observation corroborates the offer. -/
def bootstrapFallback (offer : MailboxProviderOffer) : Bool :=
  offer.authenticatedObservationCount < minAuthenticatedProviderObservationsForPreference

end MailboxProviderOffer

/-- The keyed digest of a salt, a store key, a transport identity and an offer. -/
abbrev SelectionDigest := (salt storeKey transportIdentity offerId : Id) → Id

def providerSelectionRank (H : SelectionDigest) (salt : Id) (offer : MailboxProviderOffer) : Id :=
  H salt offer.storeKey offer.transportIdentity offer.offerId

/-- What the offers are compared by, in this order. -/
def selectionKey (H : SelectionDigest) (salt : Id) (offer : MailboxProviderOffer) : Bool ×ₗ ℕ ×ₗ ℕ :=
  toLex (offer.bootstrapFallback, toLex ((providerSelectionRank H salt offer).toNat, offer.storeKey.toNat))

/-- The second pass: the deferred offers of identities that are not selected. -/
def takeColocated (requested : Nat) : (knownColocated selected : List MailboxProviderOffer) →
    List MailboxProviderOffer
  | [], selected => selected
  | offer :: rest, selected =>
    if offer.transportIdentity ∈ selected.map (·.transportIdentity) then takeColocated requested rest selected
    else if (selected ++ [offer]).length = requested then selected ++ [offer]
    else takeColocated requested rest (selected ++ [offer])

/-- The first pass, which the second follows unless the requested number is reached. The set of the
selected identities is read off the selected offers. -/
def takeRanked (requested : Nat) : (ranked selected knownColocated : List MailboxProviderOffer) →
    List MailboxProviderOffer
  | [], selected, knownColocated => takeColocated requested knownColocated selected
  | offer :: rest, selected, knownColocated =>
    if offer.transportIdentity ∈ selected.map (·.transportIdentity) then
      takeRanked requested rest selected knownColocated
    else if ∃ chosen ∈ selected, offer.SharesVerifiedPathDomainWith chosen then
      takeRanked requested rest selected (knownColocated ++ [offer])
    else if (selected ++ [offer]).length = requested then selected ++ [offer]
    else takeRanked requested rest (selected ++ [offer]) knownColocated

/-- The offers with enough work. -/
def qualified (minimumWorkBits : Nat) (offers : List MailboxProviderOffer) : List MailboxProviderOffer :=
  offers.filter (minimumWorkBits ≤ ·.admissionWorkBits)

def ranking (H : SelectionDigest) (salt : Id) (offers : List MailboxProviderOffer) : List MailboxProviderOffer :=
  offers.insertionSort fun left right => selectionKey H salt left ≤ selectionKey H salt right

def selectBootstrapSafeActiveOffers (H : SelectionDigest) (activeOffers : List MailboxProviderOffer)
    (selectionSalt : Id) (requested minimumWorkBits : Nat) : Result (List MailboxProviderOffer) := do
  ensure (1 ≤ minimumWorkBits ∧ minimumWorkBits ≤ maxMailboxStorageOfferAdmissionWorkBits)
    "mailbox provider admission work is outside protocol bounds"
  ensure (1 ≤ requested ∧ requested ≤ maxProviderSelection) "mailbox provider selection size is invalid"
  return takeRanked requested (ranking H selectionSalt (qualified minimumWorkBits activeOffers)) [] []

section
variable {requested : Nat} {offers ranked selected deferred done rest more : List MailboxProviderOffer}
  {o : MailboxProviderOffer}

/-- The identity is selected. -/
def Taken (selected : List MailboxProviderOffer) (o : MailboxProviderOffer) : Prop :=
  o.transportIdentity ∈ selected.map (·.transportIdentity)

/-- No identity is selected twice. -/
def Distinct (selected : List MailboxProviderOffer) : Prop := (selected.map (·.transportIdentity)).Nodup

theorem Taken.append (h : Taken selected o) : Taken (selected ++ more) o := by
  simp only [Taken, List.map_append, List.mem_append]
  exact Or.inl h

theorem Distinct.concat (h : Distinct selected) (hnew : ¬ Taken selected o) : Distinct (selected ++ [o]) := by
  unfold Distinct
  rw [List.map_append, List.map_singleton, ← List.concat_eq_append]
  exact List.Nodup.concat hnew h

/-- The transport identities among the offers. -/
def identities (offers : List MailboxProviderOffer) : Finset Id := (offers.map (·.transportIdentity)).toFinset

theorem identities_card_le (h : ∀ x ∈ offers, Taken selected x) :
    (identities offers).card ≤ (identities selected).card := by
  refine Finset.card_le_card fun i hi => ?_
  rw [identities, List.mem_toFinset] at hi ⊢
  obtain ⟨x, hx, rfl⟩ := List.mem_map.mp hi
  exact h x hx

/-- The second pass adds deferred offers, until there are enough or every identity is selected. -/
theorem takeColocated_spec (deferred : List MailboxProviderOffer) (hd : Distinct selected) (hlt : selected.length < requested) :
    ∃ extra, takeColocated requested deferred selected = selected ++ extra ∧ (∀ x ∈ extra, x ∈ deferred) ∧
      Distinct (selected ++ extra) ∧ (selected ++ extra).length ≤ requested ∧
      ((selected ++ extra).length = requested ∨ ∀ x ∈ deferred, Taken (selected ++ extra) x) := by
  induction deferred generalizing selected with
  | nil => exact ⟨[], by simp [takeColocated], by simp, by simpa using hd, by simpa using hlt.le, Or.inr (by simp)⟩
  | cons o rest ih =>
    simp only [takeColocated]
    split_ifs with htaken hfull
    · obtain ⟨extra, heq, hsub, hdistinct, hle, hall⟩ := ih hd hlt
      refine ⟨extra, heq, fun x hx => List.mem_cons_of_mem o (hsub x hx), hdistinct, hle, hall.imp_right ?_⟩
      exact fun hall => List.forall_mem_cons.mpr ⟨Taken.append htaken, hall⟩
    · exact ⟨[o], rfl, by simp, hd.concat htaken, hfull.le, Or.inl hfull⟩
    · have hlt' : (selected ++ [o]).length < requested := by
        simp only [List.length_append, List.length_singleton] at hfull ⊢
        omega
      obtain ⟨extra, heq, hsub, hdistinct, hle, hall⟩ := ih (hd.concat htaken) hlt'
      simp only [List.append_assoc] at heq hdistinct hle hall
      refine ⟨o :: extra, heq, ?_, hdistinct, hle, hall.imp_right ?_⟩
      · exact List.forall_mem_cons.mpr ⟨List.mem_cons_self, fun x hx => List.mem_cons_of_mem o (hsub x hx)⟩
      · refine fun hall => List.forall_mem_cons.mpr ⟨?_, hall⟩
        simp [Taken]

/-- An offer that is not needed: its identity is selected, or its path. -/
def Covered (selected : List MailboxProviderOffer) (o : MailboxProviderOffer) : Prop :=
  Taken selected o ∨ ∃ chosen ∈ selected, o.SharesVerifiedPathDomainWith chosen

theorem Covered.append (h : Covered selected o) : Covered (selected ++ more) o := by
  refine h.imp Taken.append fun ⟨chosen, hchosen, hshares⟩ => ?_
  exact ⟨chosen, List.mem_append_left _ hchosen, hshares⟩

/-- What holds of the offers that the first pass has considered. -/
structure Considered (done selected deferred : List MailboxProviderOffer) : Prop where
  distinct : Distinct selected
  apart : selected.Pairwise fun x y => ¬ y.SharesVerifiedPathDomainWith x
  sub : ∀ x ∈ selected ++ deferred, x ∈ done
  covered : ∀ x ∈ done, Covered selected x
  all : ∀ x ∈ done, Taken selected x ∨ x ∈ deferred

namespace Considered
variable (h : Considered done selected deferred)

include h

theorem skip (htaken : Taken selected o) : Considered (done ++ [o]) selected deferred :=
  { h with
    sub := fun x hx => List.mem_append_left _ (h.sub x hx)
    covered := List.forall_mem_append.mpr ⟨h.covered, List.forall_mem_singleton.mpr (Or.inl htaken)⟩
    all := List.forall_mem_append.mpr ⟨h.all, List.forall_mem_singleton.mpr (Or.inl htaken)⟩ }

theorem defer (hnear : ∃ chosen ∈ selected, o.SharesVerifiedPathDomainWith chosen) :
    Considered (done ++ [o]) selected (deferred ++ [o]) := by
  refine { h with sub := ?_, covered := ?_, all := ?_ }
  · rw [← List.append_assoc]
    exact List.forall_mem_append.mpr ⟨fun x hx => List.mem_append_left _ (h.sub x hx), by simp⟩
  · exact List.forall_mem_append.mpr ⟨h.covered, List.forall_mem_singleton.mpr (Or.inr hnear)⟩
  · refine List.forall_mem_append.mpr ⟨fun x hx => ?_, by simp⟩
    exact (h.all x hx).imp_right (List.mem_append_left _)

theorem take (hnew : ¬ Taken selected o) (hapart : ¬ ∃ chosen ∈ selected, o.SharesVerifiedPathDomainWith chosen) :
    Considered (done ++ [o]) (selected ++ [o]) deferred := by
  refine ⟨h.distinct.concat hnew, ?_, fun x hx => ?_, ?_, ?_⟩
  · refine List.pairwise_append.mpr ⟨h.apart, List.pairwise_singleton _ _, fun x hx y hy => ?_⟩
    rw [List.mem_singleton.mp hy]
    exact fun hshares => hapart ⟨x, hx, hshares⟩
  · have hsub := h.sub x
    simp only [List.mem_append] at hx hsub ⊢
    tauto
  · exact List.forall_mem_append.mpr ⟨fun x hx => (h.covered x hx).append, by simp [Covered, Taken]⟩
  · exact List.forall_mem_append.mpr ⟨fun x hx => (h.all x hx).imp_left Taken.append, by simp [Taken]⟩

end Considered

/-- What both passes have selected: the first took `first` of the offers `done`, and the second took `extra`
of those that it deferred, but only if there were no others. -/
structure Selected (requested : Nat) (ranked first extra done rest : List MailboxProviderOffer) : Prop where
  split : ranked = done ++ rest
  considered : ∃ deferred, Considered done first deferred ∧ ∀ x ∈ extra, x ∈ deferred
  distinct : Distinct (first ++ extra)
  le : (first ++ extra).length ≤ requested
  full : (first ++ extra).length = requested ∨ ∀ x ∈ ranked, Taken (first ++ extra) x
  last : extra = [] ∨ rest = []

theorem takeRanked_spec (rest : List MailboxProviderOffer) (h : Considered done selected deferred)
    (hlt : selected.length < requested) :
    ∃ first extra done' rest', takeRanked requested rest selected deferred = first ++ extra ∧
      Selected requested (done ++ rest) first extra done' rest' := by
  induction rest generalizing done selected deferred with
  | nil =>
    obtain ⟨extra, heq, hsub, hdistinct, hle, hall⟩ := takeColocated_spec deferred h.distinct hlt
    refine ⟨selected, extra, done, [], heq, ⟨rfl, ⟨deferred, h, hsub⟩, hdistinct, hle, ?_, Or.inr rfl⟩⟩
    rw [List.append_nil]
    exact hall.imp_right fun hall x hx => (h.all x hx).elim Taken.append (hall x)
  | cons o rest ih =>
    rw [List.append_cons]
    simp only [takeRanked]
    split_ifs with htaken hnear hfull
    · exact ih (h.skip htaken) hlt
    · exact ih (h.defer hnear) hlt
    · -- the early return: the offers after this one were not considered
      have hdone := h.take htaken hnear
      refine ⟨selected ++ [o], [], done ++ [o], rest, by simp, ⟨rfl, ⟨deferred, hdone, by simp⟩, ?_, ?_, ?_,
        Or.inl rfl⟩⟩ <;> rw [List.append_nil]
      · exact hdone.distinct
      · exact hfull.le
      · exact Or.inl hfull
    · refine ih (h.take htaken hnear) ?_
      simp only [List.length_append, List.length_singleton] at hfull ⊢
      omega

namespace Selected
variable {first extra : List MailboxProviderOffer} (h : Selected requested ranked first extra done rest)

include h

theorem mem_done (ho : o ∈ first ++ extra) : o ∈ done := by
  obtain ⟨deferred, hconsidered, hsub⟩ := h.considered
  exact hconsidered.sub o (List.mem_append.mpr ((List.mem_append.mp ho).imp_right (hsub o)))

theorem mem_ranked (ho : o ∈ first ++ extra) : o ∈ ranked := by
  rw [h.split]
  exact List.mem_append_left _ (h.mem_done ho)

theorem covered (ho : o ∈ done) : Covered (first ++ extra) o := by
  obtain ⟨deferred, hconsidered, -⟩ := h.considered
  exact (hconsidered.covered o ho).append

theorem length_eq : (first ++ extra).length = min requested (identities ranked).card := by
  have hcard : (identities (first ++ extra)).card = (first ++ extra).length := by
    rw [identities, List.toFinset_card_of_nodup h.distinct, List.length_map]
  have hsub : (identities (first ++ extra)).card ≤ (identities ranked).card :=
    identities_card_le fun x hx => List.mem_map_of_mem (h.mem_ranked hx)
  have hle := h.le
  rcases h.full with hfull | hall
  · omega
  · have hsup := identities_card_le hall
    omega

/-- If two of the selected offers share a path, then every offer was considered. -/
theorem rest_eq_nil {o' : MailboxProviderOffer} (ho : o ∈ first ++ extra) (ho' : o' ∈ first ++ extra)
    (hne : o ≠ o') (hshares : o.SharesVerifiedPathDomainWith o') : rest = [] := by
  refine h.last.resolve_left fun hextra => ?_
  subst hextra
  rw [List.append_nil] at ho ho'
  obtain ⟨deferred, hconsidered, -⟩ := h.considered
  have hsymm : Std.Symm fun x y : MailboxProviderOffer => ¬ y.SharesVerifiedPathDomainWith x :=
    ⟨fun x y hnot hshares => hnot ⟨hshares.2 ▸ hshares.1, hshares.2.symm⟩⟩
  exact hconsidered.apart.forall ho' ho hne.symm hshares

end Selected

variable {H : SelectionDigest} {salt : Id}

theorem ranking_perm (H : SelectionDigest) (salt : Id) (offers : List MailboxProviderOffer) :
    (ranking H salt offers).Perm offers :=
  List.perm_insertionSort _ offers

theorem ranking_congr {offers' : List MailboxProviderOffer} (hperm : offers'.Perm offers)
    (hkeys : (offers.map (·.storeKey)).Nodup) : ranking H salt offers' = ranking H salt offers := by
  refine Chain.insertionSort_congr hperm ?_
  refine List.pairwise_map.mpr ((List.pairwise_map.mp hkeys).imp fun hne heq => hne ?_)
  simp only [selectionKey, toLex_inj, Prod.mk.injEq] at heq
  exact BitVec.eq_of_toNat_eq heq.2.2

theorem fallback_le (h : ranking H salt offers = done ++ rest) {x y : MailboxProviderOffer} (hx : x ∈ done)
    (hy : y ∈ rest) : x.bootstrapFallback ≤ y.bootstrapFallback := by
  have hsorted := Chain.pairwise_insertionSort (selectionKey H salt) offers
  rw [show offers.insertionSort _ = done ++ rest from h] at hsorted
  have hle := (List.pairwise_append.mp hsorted).2.2 x hx y hy
  rcases Prod.Lex.toLex_le_toLex.mp hle with hlt | ⟨heq, -⟩
  · exact hlt.le
  · exact heq.le

end

/-- The selection has as many offers as there are identities with enough work, up to the requested number,
of distinct identities. It depends on the offers with enough work only, in any order. If two of its offers
share a path, or one of them is not corroborated, then the offers (or the corroborated offers) left out have
the identity of a selected one or share a path with it. -/
theorem bootstrap_safe_selection (H : SelectionDigest) (offers : List MailboxProviderOffer) (salt : Id)
    (requested minimumWorkBits : Nat) (hkeys : (offers.map (·.storeKey)).Nodup)
    (hwork : 1 ≤ minimumWorkBits ∧ minimumWorkBits ≤ maxMailboxStorageOfferAdmissionWorkBits)
    (hrequested : 1 ≤ requested ∧ requested ≤ maxProviderSelection) :
    ∃ selected, selectBootstrapSafeActiveOffers H offers salt requested minimumWorkBits = .ok selected ∧
      selected.length = min requested (identities (qualified minimumWorkBits offers)).card ∧
      Distinct selected ∧ (∀ x ∈ selected, x ∈ qualified minimumWorkBits offers) ∧
      (∀ offers', (qualified minimumWorkBits offers').Perm (qualified minimumWorkBits offers) →
        selectBootstrapSafeActiveOffers H offers' salt requested minimumWorkBits = .ok selected) ∧
      ((∃ x ∈ selected, ∃ y ∈ selected, x ≠ y ∧ x.SharesVerifiedPathDomainWith y) →
        ∀ x ∈ qualified minimumWorkBits offers, x ∉ selected → Covered selected x) ∧
      ((∃ x ∈ selected, x.bootstrapFallback = true) →
        ∀ x ∈ qualified minimumWorkBits offers, x.bootstrapFallback = false → x ∉ selected → Covered selected x) := by
  have hselect (offers' : List MailboxProviderOffer) :
      selectBootstrapSafeActiveOffers H offers' salt requested minimumWorkBits =
        .ok (takeRanked requested (ranking H salt (qualified minimumWorkBits offers')) [] []) :=
    bind_eq_ok.mpr ⟨(), ensure_of hwork, bind_eq_ok.mpr ⟨(), ensure_of hrequested, rfl⟩⟩
  have hperm := ranking_perm H salt (qualified minimumWorkBits offers)
  have hempty : Considered [] [] [] := by constructor <;> simp [Distinct]
  obtain ⟨first, extra, done, rest, heq, h⟩ := takeRanked_spec
    (ranking H salt (qualified minimumWorkBits offers)) hempty hrequested.1
  rw [List.nil_append] at h
  refine ⟨first ++ extra, heq ▸ hselect offers, ?_, h.distinct, fun x hx => hperm.mem_iff.mp (h.mem_ranked hx),
    fun offers' hsame => ?_, ?_, ?_⟩
  · rw [h.length_eq, identities, List.toFinset_eq_of_perm _ _ (hperm.map _), identities]
  · have hqualified : ((qualified minimumWorkBits offers).map (·.storeKey)).Nodup :=
      hkeys.sublist (List.filter_sublist.map _)
    rw [hselect, ranking_congr hsame hqualified, heq]
  · rintro ⟨x, hx, y, hy, hne, hshares⟩ z hz -
    rw [← hperm.mem_iff, h.split, h.rest_eq_nil hx hy hne hshares, List.append_nil] at hz
    exact h.covered hz
  · rintro ⟨x, hx, hfallback⟩ z hz hcorroborated -
    rw [← hperm.mem_iff, h.split] at hz
    rcases List.mem_append.mp hz with hz | hz
    · exact h.covered hz
    · -- an offer that was not considered comes after the selected one
      have hle := fallback_le h.split (h.mem_done hx) hz
      rw [hfallback, hcorroborated] at hle
      exact absurd hle (by decide)

/-- Two of three offers, the last of which has too little work, share a path. -/
theorem bootstrap_safe_selection_two : let path : VerifiedProviderPathDomain := ⟨.relayOrigin, 1, 2⟩
    let offers : List MailboxProviderOffer :=
      [⟨1, 11, 21, 12, 1, some path⟩, ⟨2, 12, 22, 12, 0, some path⟩, ⟨3, 13, 23, 3, 1, none⟩]
    (offers.map (·.storeKey)).Nodup ∧ ∃ selected,
      selectBootstrapSafeActiveOffers (fun _ _ _ offer => offer) offers 0 3 8 = .ok selected ∧
      selected.length = 2 := by
  intro path offers
  have hkeys : (offers.map (·.storeKey)).Nodup := by decide
  obtain ⟨selected, hselected, hlength, -⟩ :=
    bootstrap_safe_selection (fun _ _ _ offer => offer) offers 0 3 8 hkeys (by decide) (by decide)
  exact ⟨hkeys, selected, hselected, hlength.trans (by decide)⟩

end Kilogram.Mailbox
