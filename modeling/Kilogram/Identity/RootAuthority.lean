import Kilogram.Identity.RootProcesses

/-!
# The authority history of an account root

The operations of processes that share a root directory keep its history linear, however their steps are
interleaved and wherever a process dies. An operation that was interrupted can be repeated where it has left
what `Resumable` asks for.
-/

namespace Kilogram.Identity
open Crash Crash.Prog
open Except (ok_iff)
variable {S : Signatures}

section
variable {R : AccountRootIdentity S} {s t : RootDirectory} {operation : RootOperation} {device key : Id}
  {capabilities : List DeviceCapability} {n : Nat}

end

/-- What a process that waits for the lock finds in the directory. -/
def Found (R : AccountRootIdentity S) (schedule : List (Event RootOperation)) (P : RootDirectory → Prop) : Prop :=
  ∃ moment, moment <+: schedule ∧ ((rootProcesses R).after moment).holder = none ∧
    P ((rootProcesses R).after moment).disk

/-- It is found between two operations of the history. -/
theorem Found.between {R : AccountRootIdentity S} {schedule : List (Event RootOperation)}
    {P : RootDirectory → Prop} (h : Found R schedule P) :
    ∃ before, before <+: ((rootProcesses R).after schedule).history ∧ P ((rootService R).after before) := by
  obtain ⟨moment, hmoment, hfree, hp⟩ := h
  refine ⟨_, (ended_grows (L := rootLocking R) hmoment).trans (ended_prefix_history _), ?_⟩
  have hdisk := (serialized_after (L := rootLocking R) moment).free hfree
  exact hdisk ▸ hp

/-- Whatever happens after a list was published, with any loss of power, the list that is stored later is
not older, and a device that the first one shows as revoked stays revoked and is not listed again. -/
theorem revoked_device_stays_out (R : AccountRootIdentity S) (before rest : List RootCall)
    {l l' : AccountDeviceListSnapshot} (hl : ((rootService R).after before).deviceList = some l)
    (hl' : ((rootService R).after (before ++ rest)).deviceList = some l') :
    l.revision ≤ l'.revision ∧ ∀ device, l.content.authoritySnapshot.revokes device →
      l'.content.authoritySnapshot.revokes device ∧ ∀ c ∈ l'.devices, c.deviceId ≠ device := by
  have hle : l.revision ≤ l'.revision := by
    obtain ⟨l'', hl'', hlater⟩ := (later_after (R := R) before rest).list l hl
    cases hl'.symm.trans hl''
    rcases hlater with rfl | hlt
    · exact le_rfl
    · exact hlt.le
  have hfirst : IssuedSnapshot R (before ++ rest) l.content.authoritySnapshot :=
    ⟨before, List.prefix_append _ _, .inr ⟨l, hl, rfl⟩⟩
  have hsecond : IssuedSnapshot R (before ++ rest) l'.content.authoritySnapshot :=
    ⟨_, List.prefix_rfl, .inr ⟨l', hl', rfl⟩⟩
  refine ⟨hle, fun device hrevoked => ?_⟩
  have hstays : l'.content.authoritySnapshot.revokes device := by
    obtain ⟨r, hr, rfl⟩ := List.mem_map.mp hrevoked
    exact List.mem_map_of_mem ((issuedSnapshot_agree hfirst hsecond).2 hle r hr)
  refine ⟨hstays, ?_⟩
  rintro c hc rfl
  exact (publishedList_active ⟨_, List.prefix_rfl, hl'⟩).2 c hc hstays

section Samples

def sampleSignatures : Signatures where
  verify _ _ signature := Except.failIf (signature ≠ [1]) .invalidSignature

def sampleRoot : AccountRootIdentity sampleSignatures where
  accountId := 100
  sign _ := [1]
  verify_sign _ := rfl

def AccountRootIdentity.certificate (R : AccountRootIdentity S) (device key : Id) (n : Nat)
    (capabilities : List DeviceCapability) : DeviceCertificate :=
  let content : DeviceCertificateContent := ⟨deviceCertificateVersion, R.accountId, device, key, n,
    canonicalCapabilities capabilities⟩
  ⟨content, R.sign (.certificate content)⟩

def sampleIssue : RootOperation := .issueDeviceCertificate 5 6 DeviceCapability.messaging

def sampleRemoval : List RootCall := [⟨sampleIssue, none⟩,
  ⟨.publishDeviceList [sampleRoot.certificate 5 6 0 DeviceCapability.messaging], none⟩,
  ⟨.enrollDevice 7 8 DeviceCapability.messaging, none⟩, ⟨.revokeAndPublishDeviceList 5, none⟩]

/-- A device was removed, and while another one is enrolled the power goes. -/
theorem revoked_device_stays_out_sample : ∃ l l' : AccountDeviceListSnapshot,
    ((rootService sampleRoot).after sampleRemoval).deviceList = some l ∧ l.revision ≤ l'.revision ∧
      l'.content.authoritySnapshot.revokes 5 ∧ ∀ c ∈ l'.devices, c.deviceId ≠ 5 := by
  let rest : List RootCall := [⟨.enrollDevice 9 8 DeviceCapability.messaging, some 1⟩]
  obtain ⟨l, hl⟩ := Option.isSome_iff_exists.mp (show (((rootService sampleRoot).after
    sampleRemoval).deviceList.filter fun l => l.content.authoritySnapshot.revokes 5).isSome = true by decide +kernel)
  obtain ⟨hl, hrevoked⟩ := Option.filter_eq_some_iff.mp hl
  obtain ⟨l', hl'⟩ := Option.isSome_iff_exists.mp (show ((rootService sampleRoot).after
    (sampleRemoval ++ rest)).deviceList.isSome = true by decide +kernel)
  obtain ⟨hle, hout⟩ := revoked_device_stays_out sampleRoot _ rest hl hl'
  exact ⟨l, l', hl, hle, hout 5 (of_decide_eq_true hrevoked)⟩

end Samples
end Kilogram.Identity
