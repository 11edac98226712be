import Kilogram.Vault.CommitSteps
import Kilogram.Vault.CreditFrame

/-!
# Commits of several clients

Whatever order they come in, the requests that change the vault do so one generation after the other, so
that no change is based on a root that another one has replaced.
-/

namespace Kilogram.Vault
variable [Primitives] {r s : Root} {q : Request}

/-- A request that fails leaves the root as it is. -/
def serve (r : Root) (q : Request) : Root :=
  match step r q with
  | .ok (s, _) => s
  | .error _ => r

/-- The requests that changed the root, in their order. -/
def effective (r : Root) : List Request → List Request
  | [] => []
  | q :: qs =>
    if (serve r q).generation = r.generation then effective r qs else q :: effective (serve r q) qs

theorem Applied.generation_eq {puts : List (Key × Bytes)} {credits : List CreditAction} {mid w : Work}
    (h : Applied r q s puts credits mid w) : s.generation.toNat = r.generation.toNat + 1 := by
  have hmid : mid.root.generation = r.generation := by
    refine putAll_invariant (I := fun x => x.generation = r.generation) ?_ h.put rfl
    intro u u' entry _ hput hu
    obtain ⟨_, _, hputs⟩ := Work.puts_of_put hput
    rw [(Work.Keeps.of_puts (S := fun _ => True) (c := 0) trivial hputs).root]
    exact hu
  have hw : w.root.generation = r.generation := by
    refine credits_invariant (I := fun x => x.generation = r.generation) ?_ h.credit hmid
    intro u u' a _ ha hu
    rw [(Credits.apply_keeps ha).2.root]
    exact hu
  rw [h.generation, hw]

/-- A request changes nothing, or it was made for this generation and leads to the next one. -/
theorem serve_cases (r : Root) (q : Request) : serve r q = r ∨
    q.expected = r.generation ∧ (serve r q).generation.toNat = r.generation.toNat + 1 := by
  unfold serve
  split
  · next s same hstep =>
    rcases step_cases hstep with rfl | ⟨puts, credits, mid, w, happ⟩
    · exact .inl rfl
    · exact .inr ⟨happ.expected, happ.generation_eq⟩
  · exact .inl rfl

/-- No update is lost: the requests that change a vault were made for consecutive generations. -/
theorem commits_serialize (r : Root) (qs : List Request) :
    (effective r qs).map (·.expected.toNat) = List.range' r.generation.toNat (effective r qs).length ∧
      (qs.foldl serve r).generation.toNat = r.generation.toNat + (effective r qs).length := by
  induction qs generalizing r with
  | nil => simp [effective]
  | cons q qs ih =>
    rw [effective, List.foldl_cons]
    rcases serve_cases r q with hsame | ⟨hexpected, hnext⟩
    · rw [hsame, if_pos rfl]
      exact ih r
    · have hne : (serve r q).generation ≠ r.generation := by
        intro heq
        rw [heq] at hnext
        omega
      obtain ⟨hserial, hcount⟩ := ih (serve r q)
      rw [if_neg hne, List.map_cons, List.length_cons, List.range'_succ, hserial, hcount, hnext, hexpected]
      exact ⟨rfl, by omega⟩

end Kilogram.Vault
