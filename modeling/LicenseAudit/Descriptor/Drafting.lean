import LicenseAudit.Descriptor.Draft

/-!
# Writing a draft in place

A descriptor is written by calls on one draft. A call works on the draft in place, and what it has
written stays written if it fails afterwards. That a call which fails leaves nothing behind is
therefore a matter of what it does: each looks at everything that it needs first and writes last.

`Draft.addLicense` and its like say what becomes of a draft; here the same is done to it.
-/

set_option autoImplicit false

namespace LicenseAudit

/-- Work on a draft, which may fail at any point. -/
abbrev Drafting (α : Type) : Type := ExceptT Fault (StateM Draft) α

namespace Drafting

/-- Registers a license, and gives it back for grants to hold. -/
def addLicense (l : License) : Drafting License := do
  if (← get).licenses.contains l.id then throw (.duplicateLicense l.id)
  modify fun d => { d with licenses := d.licenses.insertNew l }
  return l

/-- Registers an organisation, and gives it back for holdings to hold. -/
def addOrganisation (o : Organisation) : Drafting Organisation := do
  if (← get).organisations.contains o.id then throw (.duplicateOrganisation o.id)
  modify fun d => { d with organisations := d.organisations.insertNew o }
  return o

def addSection (s : Section) : Drafting Unit := do
  if (← get).sections.contains s.name then throw (.duplicateDirectory s.name)
  (← get).checkGrants s.grants
  (← get).checkHoldings s.publicDomain.toList
  modify fun d => { d with sections := d.sections.insertNew s }

/-- A call on a draft. -/
inductive Call where
  | addLicense (l : License)
  | addOrganisation (o : Organisation)
  | addNotice (id text : String)
  | setPrimaryNotice (text : String)
  | setPrimaryCopyrightNotice (text : String)
  | addSection (s : Section)

def perform : Call → Drafting Unit
  | .addLicense l => discard (addLicense l)
  | .addOrganisation o => discard (addOrganisation o)
  | .addNotice id text => modify fun d => d.addNotice id text
  | .setPrimaryNotice text => modify fun d => d.setPrimaryNotice text
  | .setPrimaryCopyrightNotice text => modify fun d => d.setPrimaryCopyrightNotice text
  | .addSection s => addSection s

/-- The draft after a call, whether the call fails or not. -/
def next (d : Draft) (c : Call) : Draft := ((perform c).run d).2

/-- The draft that calls make of an empty one, each made whatever became of those before it. -/
def draftOf (cs : List Call) : Draft := cs.foldl next ∅

end Drafting

end LicenseAudit
