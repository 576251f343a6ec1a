import LicenseAudit.Descriptor.Walk
import LicenseAudit.Location

/-!
# Which resources are declared, and which twice

The first declaration of a name in a directory counts; every later one makes it a duplicate. The
same name in two directories is two resources.

The tally needs to know the directory it is in, so it has to be taken from a section downwards. A
resource that comes before any section is remembered as `misplaced`, and the tally stops there.
-/

set_option autoImplicit false

namespace LicenseAudit

/-- The resources declared on a walk. -/
structure DeclaredNames where
  /-- The directory of the section last entered. -/
  directory : Option String
  declared : Locations
  duplicates : Locations
  /-- The names of the resources declared, whatever their directory. -/
  names : NameSet
  /-- The resource that came before any section. -/
  misplaced : Option Resource
deriving DecidableEq

namespace DeclaredNames

def start : DeclaredNames := ⟨none, ∅, ∅, ∅, none⟩

/-- Takes a resource that is declared in a directory. -/
def declare (t : DeclaredNames) (directory name : String) : DeclaredNames :=
  let l : Location := ⟨directory, name⟩
  if t.declared.contains l.key then { t with duplicates := t.duplicates.insertNew l }
  else { t with declared := t.declared.insertNew l, names := t.names.insertNew name }

def walker : Walker DeclaredNames where
  visit t stop :=
    match t.misplaced, stop with
    | some _, _ => t
    | none, .directory s => { t with directory := some s.name }
    | none, .resource r =>
      match t.directory with
      | some directory => t.declare directory r.name
      | none => { t with misplaced := some r }
    | none, .grant _ | none, .holding _ => t

/-- What is wrong when a resource came before any section. -/
def misuse? (t : DeclaredNames) : Option String :=
  t.misplaced.map fun r => "resource '" ++ r.name ++ "' visited outside of any directory"

/-- Whether some resource is declared again. -/
def hasDuplicates (t : DeclaredNames) : Bool := !t.duplicates.isEmpty

end DeclaredNames

end LicenseAudit
