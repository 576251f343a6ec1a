import LicenseAudit.Review
import LicenseAudit.Scan.Search
import LicenseAudit.Settings

/-!
# Auditing a descriptor

An audit is one review under the settings of a run. With a distribution to audit it is scanned
first, and a scan that fails fails the audit; without one the descriptor is reviewed against
itself only.
-/

set_option autoImplicit false

namespace LicenseAudit

/-- A descriptor that passed its audit, and what documents made from it need to know. -/
structure Approval where
  descriptor : Descriptor
  includeSourceUrls : Bool
deriving DecidableEq

namespace Audit

/-- The listings of the distribution, if there is one to audit. -/
def listings (d : Disk) (s : Settings) : Except Fault (Option Listings) :=
  match s.sourceDir with
  | none => .ok none
  | some root => do
    let scan ← Scan.plan d root
    return some (← (scan.ignoring s.ignore).run d)

def review (d : Disk) (s : Settings) : Except Fault Review := do
  match ← listings d s with
  | some ls => return .ofListings ls
  | none => return .ofDescriptor

/-- Everything wrong with a descriptor. -/
def report (d : Disk) (s : Settings) (descriptor : Descriptor) : Except Fault Report := do
  return ((← review d s).run descriptor).report

/-- Passes a descriptor on if nothing is wrong with it. -/
def run (d : Disk) (s : Settings) (descriptor : Descriptor) : Except Fault Approval := do
  let approved ← ((← review d s).validate descriptor).2
  return ⟨approved, s.includeSourceUrls⟩

end Audit

end LicenseAudit
