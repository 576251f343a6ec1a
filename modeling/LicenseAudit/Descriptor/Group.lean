import LicenseAudit.License.Basic
import LicenseAudit.Ordered.Arranged
import LicenseAudit.Organisation
import LicenseAudit.Resource

/-!
# What is declared for one directory

The declaration for a directory is a `Section`: its public-domain content and the licenses
granted to the rest of it. Content is grouped by the organisation that holds it, in a `Holding`;
a `Grant` puts some holdings under a license and supplies the parameters of its text.

**The order inside a section is part of its meaning.** Holdings stand by the organisation's name,
then its id; resources stand by name; what ties keeps the order in which it was supplied. Grants
keep the order in which they were supplied throughout.
-/

set_option autoImplicit false

namespace LicenseAudit

/-- The resources that one organisation holds within a group. A name may be there twice. -/
structure Holding where
  organisation : Organisation
  resources : Arranged Resource.name
deriving DecidableEq, Inhabited

namespace Holding

/-- A holding of these resources. -/
def ofResources (organisation : Organisation) (resources : List Resource) : Holding :=
  ⟨organisation, .ofList resources⟩

/-- What holdings are ordered and told apart by: the organisation's name, then its id. -/
def rank (h : Holding) : List String := [h.organisation.name, h.organisation.id]

end Holding

/-- A license granted to some holdings, with the parameters of its text. -/
structure Grant where
  license : License
  /-- A copyright notice for this content. -/
  copyrightNotice : Option String
  /-- The values of the license's parameters. -/
  parameters : Parameters
  holdings : Arranged Holding.rank
  /-- The parameters are the ones that the license expects. -/
  accepted : license.Accepts parameters
deriving DecidableEq

namespace Grant

/-- Grants a license. A parameter supplied twice is refused before the parameters are compared with
the ones that the license expects. -/
def make (license : License) (copyrightNotice : Option String)
    (supplied : List (String × String)) (holdings : List Holding) : Except Fault Grant :=
  match firstRepeat? [] (supplied.map (·.1)) with
  | some parameter => .error (.duplicateParameter license.id parameter)
  | none =>
    let values : Parameters := SortedBy.ofList supplied
    if h : license.Accepts values then
      .ok ⟨license, copyrightNotice, values, .ofList holdings, h⟩
    else
      .error (.parameterMismatch license.id (license.missing values) (license.unexpected values))

/-- The license text with the grant's parameters filled in. -/
def text (g : Grant) : Except Fault String := g.license.text g.parameters

end Grant

/-- What is declared for one directory. -/
structure Section where
  /-- The directory, relative to the root of the distribution; the root itself is a dot. -/
  name : String
  /-- The licenses granted, in the order supplied. -/
  grants : List Grant
  /-- The content that carries no license, by organisation. -/
  publicDomain : Arranged Holding.rank
deriving DecidableEq

abbrev Sections : Type := SortedBy Section.name

namespace Section

/-- A section with this content. -/
def ofGroups (name : String) (grants : List Grant) (publicDomain : List Holding) : Section :=
  ⟨name, grants, .ofList publicDomain⟩

/-- Whether the directory has content that carries no license. -/
def hasPublicDomain (s : Section) : Bool := !s.publicDomain.toList.isEmpty

end Section

end LicenseAudit
