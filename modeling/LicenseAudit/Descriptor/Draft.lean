import LicenseAudit.Descriptor.Basic

/-!
# Drafting a descriptor

A draft registers licenses, organisations and notices, takes sections, and is finished by naming
what is primary. An operation that fails gives no new draft, so nothing half done can be kept.

A section is taken only if its directory is new and every license and organisation in it is
registered. The check goes by id: the license that a grant holds may be another than the one that
is registered under its id.
-/

set_option autoImplicit false

namespace LicenseAudit

/-- A descriptor that is being written. -/
structure Draft where
  licenses : Licenses
  organisations : Organisations
  notices : Table String
  sections : Sections
  primaryCopyrightNotice : Option String
  primaryNotice : Option String
deriving DecidableEq

namespace Draft

def empty : Draft := ⟨∅, ∅, ∅, ∅, none, none⟩

instance : EmptyCollection Draft := ⟨empty⟩

/-- Registers a license under its id, which must be free. -/
def addLicense (d : Draft) (l : License) : Except Fault Draft :=
  if d.licenses.contains l.id then .error (.duplicateLicense l.id)
  else .ok { d with licenses := d.licenses.insertNew l }

/-- Registers an organisation under its id, which must be free. -/
def addOrganisation (d : Draft) (o : Organisation) : Except Fault Draft :=
  if d.organisations.contains o.id then .error (.duplicateOrganisation o.id)
  else .ok { d with organisations := d.organisations.insertNew o }

def addNotice (d : Draft) (id text : String) : Draft :=
  { d with notices := d.notices.put (id, text) }

/-- Sets the copyright notice of the distribution. -/
def setPrimaryCopyrightNotice (d : Draft) (text : String) : Draft :=
  { d with primaryCopyrightNotice := some text }

/-- Sets the notice of the distribution. -/
def setPrimaryNotice (d : Draft) (text : String) : Draft := { d with primaryNotice := some text }

/-- The license registered under this id. -/
def license (d : Draft) (id : String) : Except Fault License := Licenses.lookup d.licenses id

/-- The organisation registered under this id. -/
def organisation (d : Draft) (id : String) : Except Fault Organisation :=
  Organisations.lookup d.organisations id

/-- Refuses holdings of an organisation that is not registered. -/
def checkHoldings (d : Draft) (hs : List Holding) : Except Fault Unit :=
  hs.forM fun h => do let _ ← d.organisation h.organisation.id

/-- Refuses grants of a license, or to an organisation, that is not registered. -/
def checkGrants (d : Draft) (gs : List Grant) : Except Fault Unit :=
  gs.forM fun g => do
    let _ ← d.license g.license.id
    d.checkHoldings g.holdings.toList

/-- Takes a section. Of several things wrong with it the first is reported: its name, then its
grants one by one (the license, then the organisations), then its public domain. -/
def addSection (d : Draft) (s : Section) : Except Fault Draft :=
  if d.sections.contains s.name then .error (.duplicateDirectory s.name)
  else do
    d.checkGrants s.grants
    d.checkHoldings s.publicDomain.toList
    return { d with sections := d.sections.insertNew s }

/-- Finishes the draft by naming the primary license and organisation. -/
def finish (d : Draft) (license : String) (organisation : Option String) :
    Except Fault Descriptor := do
  let primaryLicense ← d.license license
  let primaryOrganisation ← organisation.mapM d.organisation
  return {
    primaryLicense, primaryOrganisation
    primaryCopyrightNotice := d.primaryCopyrightNotice
    primaryNotice := d.primaryNotice
    licenses := d.licenses
    organisations := d.organisations
    notices := d.notices
    sections := d.sections }

end Draft

end LicenseAudit
