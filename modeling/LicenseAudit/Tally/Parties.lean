import LicenseAudit.Descriptor.Walk

/-!
# Which licenses and organisations are involved

Licenses and organisations are told apart by id; of two with one id the first met is kept.
Resources say nothing here, so their layer is not entered.
-/

set_option autoImplicit false

namespace LicenseAudit

/-- The licenses and organisations met on a walk. -/
structure Parties where
  licenses : Licenses
  /-- The organisations of holdings, public domain included. -/
  organisations : Organisations
deriving DecidableEq

namespace Parties

def start : Parties := ⟨∅, ∅⟩

def walker : Walker Parties where
  enters _ layer := layer != .resources
  visit t stop :=
    match stop with
    | .grant g => { t with licenses := t.licenses.insertNew g.license }
    | .holding h => { t with organisations := t.organisations.insertNew h.organisation }
    | .directory _ | .resource _ => t

/-- Whether the license of this id is the one and only license met. -/
def isOnlyLicense (t : Parties) (id : String) : Bool :=
  t.licenses.size == 1 && t.licenses.toList.all fun l => l.id == id

/-- Whether the organisation of this id is the one and only organisation met. -/
def isOnlyOrganisation (t : Parties) (id : String) : Bool :=
  t.organisations.size == 1 && t.organisations.toList.all fun o => o.id == id

end Parties

end LicenseAudit
