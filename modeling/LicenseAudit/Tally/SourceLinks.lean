import LicenseAudit.Descriptor.Walk
import LicenseAudit.Location

/-!
# Which resources lack the link to their source

Only content under a license that requires a source is looked at. The public domain carries no
license and is not entered; a new section forgets the license of the last one.

The tally needs to know both the directory and the license it is in. A resource that comes
without either is remembered as `misplaced`, and the tally stops there.
-/

set_option autoImplicit false

namespace LicenseAudit

/-- The resources on a walk whose license requires a source. -/
structure SourceLinks where
  /-- The directory of the section last entered. -/
  directory : Option String
  /-- The license last met in that section. -/
  license : Option License
  /-- The resources that give a source. -/
  present : Locations
  /-- The resources that give none. -/
  missing : Locations
  /-- The resource that came without a directory or a license. -/
  misplaced : Option Resource
deriving DecidableEq

namespace SourceLinks

def start : SourceLinks := ⟨none, none, ∅, ∅, none⟩

/-- Takes a resource of a directory under a license. -/
def take (t : SourceLinks) (directory : String) (license : License) (r : Resource) : SourceLinks :=
  if license.sourceRequired then
    if r.hasSource then { t with present := t.present.insertNew ⟨directory, r.name⟩ }
    else { t with missing := t.missing.insertNew ⟨directory, r.name⟩ }
  else t

def walker : Walker SourceLinks where
  enters _ layer := layer != .publicDomain
  visit t stop :=
    match t.misplaced, stop with
    | some _, _ => t
    | none, .directory s => { t with directory := some s.name, license := none }
    | none, .grant g => { t with license := some g.license }
    | none, .resource r =>
      match t.directory, t.license with
      | some directory, some license => t.take directory license r
      | _, _ => { t with misplaced := some r }
    | none, .holding _ => t

/-- What is wrong when a resource came without a directory or a license. -/
def misuse? (t : SourceLinks) : Option String :=
  t.misplaced.map fun r => "resource '" ++ r.name ++ "' visited before its directory and license"

/-- Whether no resource lacks its source. -/
def isComplete (t : SourceLinks) : Bool := t.missing.isEmpty

end SourceLinks

end LicenseAudit
