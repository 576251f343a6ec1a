import LicenseAudit.Ordered.SortedBy

/-!
# What is on disk in one directory

A listing names a directory, relative to the root of the distribution, and what it holds besides
directories.
-/

set_option autoImplicit false

namespace LicenseAudit

/-- What one directory holds. -/
structure Listing where
  /-- The directory, relative to the root; the root itself is a dot. -/
  name : String
  /-- The names of what it holds besides directories. -/
  contents : NameSet
deriving DecidableEq, Inhabited

abbrev Listings : Type := SortedBy Listing.name

end LicenseAudit
