import LicenseAudit.Disk.Name
import LicenseAudit.Ordered.SortedBy

/-!
# Disks

A `Disk` is a finite tree of files, directories and symbolic links, held as a table from paths to
nodes. A directory's entries are the nodes one step below it, in the order of the bytes of their
names. The root of the disk is always there, and always a directory that can be read and searched.

Permissions are those of the one user who looks at the disk: a directory may be listed if it can
be read, and what is below it may be reached if it can be searched.
-/

set_option autoImplicit false

namespace LicenseAudit

namespace Disk

/-- What the user may do with a directory. -/
structure Access where
  /-- List its entries. -/
  read : Bool
  /-- Reach what is below it. -/
  search : Bool
deriving DecidableEq

def Access.full : Access := ⟨true, true⟩

/-- What is at a path. -/
inductive Node where
  /-- A file, whether it may be read, and its bytes. -/
  | file (readable : Bool) (content : ByteArray)
  /-- A directory, and what may be done with it. -/
  | directory (access : Access)
  | link (target : Route)

inductive Refusal where
  | notFound
  | alreadyThere
  | denied
  | notDirectory
  | isDirectory
  | tooLong
  | tooManyLinks
  | notText
  | zeroInPath
deriving DecidableEq

def Refusal.message : Refusal → String
  | notFound => "No such file or directory (os error 2)"
  | alreadyThere => "File exists (os error 17)"
  | denied => "Permission denied (os error 13)"
  | notDirectory => "Not a directory (os error 20)"
  | isDirectory => "Is a directory (os error 21)"
  | tooLong => "File name too long (os error 36)"
  | tooManyLinks => "Too many levels of symbolic links (os error 40)"
  | notText => "stream did not contain valid UTF-8"
  | zeroInPath => "file name contained an unexpected NUL byte"

end Disk

/-- A tree of files, directories and links. -/
structure Disk where
  /-- What is at each path below the root. -/
  nodes : SortedBy (fun entry : Disk.Path × Disk.Node => entry.1.key)

namespace Disk

def empty : Disk := ⟨∅⟩

/-- What is at a path. -/
def node? (d : Disk) : Path → Option Node
  | [] => some (.directory .full)
  | n :: p => (d.nodes.find? (Path.key (n :: p))).map (·.2)

def put (d : Disk) (p : Path) (n : Node) : Disk := ⟨d.nodes.put (p, n)⟩

/-- The node and its name, if a path is that of an entry of this directory. -/
def entryOf? (above : Path) : Path × Node → Option (Name × Node)
  | ([], _) => none
  | (n :: p, node) => if p = above then some (n, node) else none

/-- The entries of a directory, in the order of the bytes of their names. -/
def entries (d : Disk) (p : Path) : List (Name × Node) := d.nodes.toList.filterMap (entryOf? p)

/-- What may be done with the directory at a path, if there is one. -/
def access? (d : Disk) (p : Path) : Option Access :=
  match d.node? p with
  | some (.directory a) => some a
  | _ => none

def isDirectory (d : Disk) (p : Path) : Bool := (d.access? p).isSome

/-- Whether there is a directory at a path below which the user may go. -/
def searchable (d : Disk) (p : Path) : Bool :=
  match d.access? p with
  | some a => a.search
  | none => false

/-- The paths of all directories, the root first. -/
def directories (d : Disk) : List Path :=
  [] :: (d.nodes.toList.map (·.1)).filter d.isDirectory

end Disk

end LicenseAudit
