import LicenseAudit.Ordered.SortedBy

/-!
# Resources

A resource is a named artifact of the distribution. It is compared by its name alone; which
directory the name belongs to is known only where the resource is declared.
-/

set_option autoImplicit false

namespace LicenseAudit

/-- A named artifact. -/
structure Resource where
  /-- Its name within the directory that declares it. -/
  name : String
  /-- The id of the notice that it carries. -/
  noticeId : Option String
  /-- Where its source is found. -/
  source : Option String
deriving DecidableEq, Inhabited

abbrev Resources : Type := SortedBy Resource.name

namespace Resource

/-- Whether a source is given; an empty text gives none. -/
def hasSource (r : Resource) : Bool :=
  match r.source with
  | some source => source != ""
  | none => false

end Resource

end LicenseAudit
