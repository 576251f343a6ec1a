import LicenseAudit.Tally.NoticeIndex
import LicenseAudit.Tally.Parties

/-!
# What a descriptor answers

What a reader of a descriptor asks about its content — is it all primary content, does anything
need its source, who carries which notice — is answered from a tally of the walk.
-/

set_option autoImplicit false

namespace LicenseAudit

namespace Descriptor

/-- Whether these parties are the primary license and the primary organisation, and no other. -/
def areOnlyPrimary (d : Descriptor) (t : Parties) : Bool :=
  t.isOnlyLicense d.primaryLicense.id &&
    match d.primaryOrganisation with
    | some primary => t.isOnlyOrganisation primary.id
    | none => false

/-- Whether a section involves the primary license and organisation, and no other. -/
def isOnlyPrimarySection (d : Descriptor) (s : Section) : Bool :=
  d.areOnlyPrimary (s.walk Parties.walker .start)

/-- Whether a grant involves the primary license and organisation, and no other. -/
def isOnlyPrimaryGrant (d : Descriptor) (g : Grant) : Bool :=
  d.areOnlyPrimary (g.walk Parties.walker .start)

/-- Whether the whole descriptor involves the primary license and organisation, and no other. -/
def isOnlyPrimary (d : Descriptor) : Bool := d.areOnlyPrimary (d.walk Parties.walker .start)

/-- Whether a license in use requires a source. -/
def isSourceRequired (d : Descriptor) : Bool :=
  (d.walk Parties.walker .start).licenses.toList.any (·.sourceRequired)

/-- The resources by the text of their notice. -/
def resourceNotices (d : Descriptor) : Except Fault (Table Resources) :=
  (d.walk NoticeIndex.walker .start).resourceNotices d.notices

/-- The copyright notices of grants, without that of the distribution. -/
def otherNotices (d : Descriptor) : NameSet :=
  (d.walk NoticeIndex.walker .start).otherNotices d.primaryCopyrightNotice

end Descriptor

end LicenseAudit
