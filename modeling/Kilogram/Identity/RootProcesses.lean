import Kilogram.Identity.RootHistory

/-!
# The processes of an account root

Processes that share a root directory take the write lock before they change it. At every moment the
directory is that of operations that followed one another, the last of which may be under way.
-/

namespace Kilogram.Identity
open Crash Crash.Prog
variable {S : Signatures} {R : AccountRootIdentity S}

theorem ensureAuthorityLogReady_leads : Leads RootDirectory.Ready () (.done (.ok ())) ensureAuthorityLogReady := by
  refine .see fun d hd => ?_
  have hversion : d.logVersion = some authorityLogVersion := hd
  simp only [bind, pure, andThen, hversion, failIf, ne_eq, not_true_eq_false, if_false]
  exact .here

/-- An operation comes to the lock, is refused before, or is the one that takes no lock. -/
theorem gate_run (operation : RootOperation) : ∃ gate, Gate (operation = .authoritySnapshot) gate ∧
    Leads RootDirectory.Ready () gate (operation.run R) := by
  have hlocked (body : RootProg RootAnswer) : ∃ gate, Gate (operation = .authoritySnapshot) gate ∧
      Leads RootDirectory.Ready () gate (ensureAuthorityLogReady >>= fun _ => locked body) :=
    ⟨locked body, .lock rfl, ensureAuthorityLogReady_leads.bind (f := fun _ => locked body)⟩
  have hvalidated (capabilities : List DeviceCapability) (body : RootProg RootAnswer) :
      ∃ gate, Gate (operation = .authoritySnapshot) gate ∧ Leads RootDirectory.Ready () gate
        (ensureAuthorityLogReady >>= fun _ => lift (validateRequestedCapabilities capabilities) >>= fun _ =>
          locked body) := by
    refine ⟨_, ?_, ensureAuthorityLogReady_leads.bind⟩
    cases validateRequestedCapabilities capabilities with
    | error e => exact .refused e
    | ok _ => exact .lock rfl
  cases operation with
  | enrollDevice device key capabilities | issueDeviceCertificate device key capabilities =>
    exact hvalidated capabilities _
  | authoritySnapshot =>
    refine ⟨_, ?_, ensureAuthorityLogReady_leads.bind⟩
    refine .look rfl fun d => ?_
    cases hd : d.authoritySnapshot R with
    | error e => exact ⟨.error e, by simp [bind, pure, andThen, lift, hd]⟩
    | ok snapshot => exact ⟨.ok (.snapshot snapshot), by simp [bind, pure, andThen, lift, hd]⟩
  | _ => exact hlocked _

variable (R) in
/-- The processes of a root. -/
def rootLocking : Locking Unit RootDirectory IdentityError RootAnswer RootOperation where
  prog := RootOperation.run R
  env := ()
  start := .created
  ready := RootDirectory.Ready
  looks operation := operation = .authoritySnapshot
  ready_after := ready_after
  gate := gate_run

end Kilogram.Identity
