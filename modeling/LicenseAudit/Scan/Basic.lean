import LicenseAudit.Disk.Resolve
import LicenseAudit.Fault
import LicenseAudit.Listing

/-!
# Listing one directory

A scan goes through the directories of a distribution. This module says what it sees in a single
one: entries whose name is ignored are left out; entries that are directories, or links that lead
to one, are directories to go to; all others are content.

A link counts as content when the user cannot tell that it leads to a directory. A directory that
cannot be listed, and a directory to go to whose path cannot be found out, are failures.
-/

set_option autoImplicit false

namespace LicenseAudit

namespace Scan

/-- A directory that is to be listed, and the name it is reported under. -/
structure Work where
  path : Disk.Path
  /-- Its name relative to the root of the scan. -/
  name : String
deriving DecidableEq

/-- The name that the root of a scan is reported under. -/
def rootName : String := "."

/-- The name of a directory's subdirectory: the names on the way to it, joined by slashes. -/
def childName (parent child : String) : String :=
  if parent = rootName then child else parent ++ "/" ++ child

inductive Failure where
  | listing (path : Disk.Path) (why : Disk.Refusal)
  | resolving (path : Disk.Path) (why : Disk.Refusal)
deriving DecidableEq

def Failure.fault : Failure → Fault
  | listing path why =>
    .unlistable path.text ("IO error for operation on " ++ path.text ++ ": " ++ why.message)
  | resolving path why => .unlistable path.text why.message

/-- What one directory holds: content, and directories to go to. -/
structure Found where
  /-- The names of its content, as often as they are there. -/
  contents : List String
  /-- Its own subdirectories. -/
  real : List Work
  /-- The directories that links in it lead to. -/
  linked : List Work
deriving DecidableEq

/-- Whether an entry is a directory, or a link that is seen to lead to one. -/
def isDirectoryEntry (d : Disk) (path : Disk.Path) : Disk.Node → Bool
  | .directory _ => true
  | .link _ => d.leadsToDirectory path
  | .file _ _ => false

/-- Sorts one entry of a directory. -/
def takeEntry (d : Disk) (ignored : NameSet) (work : Work) (found : Found)
    (entry : Disk.Name × Disk.Node) : Except Failure Found :=
  let name := entry.1.text
  let path := entry.1 :: work.path
  if ignored.contains name then .ok found
  else if isDirectoryEntry d path entry.2 then
    match d.canonical (.ofPath path) with
    | .error why => .error (.resolving path why)
    | .ok target =>
      let child : Work := ⟨target, childName work.name name⟩
      match entry.2 with
      | .link _ => .ok { found with linked := found.linked ++ [child] }
      | _ => .ok { found with real := found.real ++ [child] }
  else .ok { found with contents := found.contents ++ [name] }

def list (d : Disk) (ignored : NameSet) (work : Work) : Except Failure Found :=
  match d.access? work.path with
  | none => .error (.listing work.path .notFound)
  | some a =>
    if a.read then (d.entries work.path).foldlM (takeEntry d ignored work) ⟨[], [], []⟩
    else .error (.listing work.path .denied)

/-- A directory can be listed only where there is one. -/
theorem isDirectory_of_list {d : Disk} {ignored : NameSet} {work : Work} {found : Found}
    (h : list d ignored work = .ok found) : d.isDirectory work.path = true := by
  unfold list at h
  unfold Disk.isDirectory
  split at h
  · cases h
  · simp_all

end Scan

end LicenseAudit
