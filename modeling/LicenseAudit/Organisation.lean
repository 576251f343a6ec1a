import LicenseAudit.Ordered.SortedBy

/-!
# Organisations

An organisation is known by its id alone.
-/

set_option autoImplicit false

namespace LicenseAudit

/-- An organisation that content is attributed to. -/
structure Organisation where
  id : String
  name : String
  url : String
deriving DecidableEq, Inhabited

abbrev Organisations : Type := SortedBy Organisation.id

end LicenseAudit
