import LicenseAudit.Ordered.SortedBy

/-!
# Where a resource is

A resource's name means something only inside a directory, so every finding of an audit speaks
about a `Location`: a directory and a name in it. Locations are ordered by directory, then by
resource.
-/

set_option autoImplicit false

namespace LicenseAudit

/-- A resource named within a directory. -/
structure Location where
  /-- The directory, named relative to the root of the distribution. -/
  directory : String
  resource : String
deriving DecidableEq, Inhabited

namespace Location

/-- What locations are ordered and told apart by: the directory, then the resource. -/
def key (l : Location) : List String := [l.directory, l.resource]

theorem key_injective {l m : Location} (h : l.key = m.key) : l = m := by
  cases l; cases m
  simpa [key] using h

/-- The text `directory/resource`. -/
def text (l : Location) : String := l.directory ++ "/" ++ l.resource

end Location

abbrev Locations : Type := SortedBy Location.key

namespace Locations

def inDirectory (directory : String) (names : List String) : List Location :=
  names.map fun name => ⟨directory, name⟩

end Locations

end LicenseAudit
