import LicenseAudit.Descriptor.Group

/-!
# Descriptors

A descriptor is the declaration for a whole distribution: the licenses, organisations and notices
that it knows, the sections of its directories, and which license and organisation are the
primary ones. It comes from a finished `Draft`, and only reads from then on.
-/

set_option autoImplicit false

namespace LicenseAudit

/-- The declaration for a whole distribution. -/
structure Descriptor where
  primaryLicense : License
  primaryOrganisation : Option Organisation
  primaryCopyrightNotice : Option String
  primaryNotice : Option String
  licenses : Licenses
  organisations : Organisations
  notices : Table String
  sections : Sections
deriving DecidableEq

/-- The license of this id. -/
def Licenses.lookup (ls : Licenses) (id : String) : Except Fault License :=
  match ls.find? id with
  | some l => .ok l
  | none => .error (.unknownLicense id)

/-- The organisation of this id. -/
def Organisations.lookup (os : Organisations) (id : String) : Except Fault Organisation :=
  match os.find? id with
  | some o => .ok o
  | none => .error (.unknownOrganisation id)

namespace Descriptor

/-- The license of this id. -/
def license (d : Descriptor) (id : String) : Except Fault License := Licenses.lookup d.licenses id

/-- The organisation of this id. -/
def organisation (d : Descriptor) (id : String) : Except Fault Organisation :=
  Organisations.lookup d.organisations id

/-- What is declared for the directory of this name. -/
def section? (d : Descriptor) (name : String) : Option Section := d.sections.find? name

/-- Whether this is the license of the distribution as a whole, by id. -/
def isPrimaryLicense (d : Descriptor) (l : License) : Bool := l.id == d.primaryLicense.id

/-- Whether this content is held by the organisation behind the distribution. -/
def isPrimaryHolding (d : Descriptor) (h : Holding) : Bool :=
  match d.primaryOrganisation with
  | some primary => primary.id == h.organisation.id
  | none => false

end Descriptor

end LicenseAudit
