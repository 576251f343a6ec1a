import LicenseAudit.Disk.Resolve
import LicenseAudit.Fault
import LicenseAudit.Toml.Document

/-!
# Settings of an audit

The settings say where the distribution is, if its content is to be audited at all, what to leave
out of it, and whether documents made from the descriptor link to sources. They are read from a
TOML document; what is not set has its default, and keys of other meanings are passed over.
-/

set_option autoImplicit false

namespace LicenseAudit

/-- The settings of an audit. -/
structure Settings where
  /-- The distribution to audit; without one only the descriptor is. It is given by a text, as it
  stands in the document, so a place that no text leads to cannot be set (`Scan.root`). -/
  sourceDir : Option String
  includeSourceUrls : Bool
  /-- The names of files and directories to leave out. -/
  ignore : List String
deriving DecidableEq

namespace Settings

def defaults : Settings := ⟨none, false, []⟩

def isAudit (s : Settings) : Bool := s.sourceDir.isSome

def string? : Toml.Value → Option String
  | .string s => some s
  | _ => none

def ofTable? (ms : Toml.Members) : Option Settings := do
  let sourceDir ← match ms.get? "source_dir" with
    | none => some none
    | some v => (string? v).map some
  let includeSourceUrls ← match ms.get? "include_source_urls" with
    | none => some false
    | some (.boolean b) => some b
    | some _ => none
  let ignore ← match ms.get? "ignore" with
    | none => some []
    | some (.array items) => items.mapM string?
    | some _ => none
  return ⟨sourceDir, includeSourceUrls, ignore⟩

/-- The settings in a TOML document, if it is one and sets them to values that they can have. -/
def ofToml? (text : String) : Option Settings := Toml.read? text >>= ofTable?

def ofToml (text : String) : Except Fault Settings :=
  match ofToml? text with
  | some s => .ok s
  | none => .error (.settings "Failed to parse")

def ofFile (d : Disk) (path : String) : Except Fault Settings :=
  match d.readText path with
  | .error why => .error (.settings ("Failed to read " ++ path ++ ": " ++ why.message))
  | .ok text =>
    match ofToml? text with
    | some s => .ok s
    | none => .error (.settings ("Failed to parse " ++ path))

/-- The files that a project keeps its settings in, the preferred one first. -/
def fileNames : List String := [".disclose.toml", "disclose.toml"]

def fileIn (root name : String) : String :=
  if root = "" then name
  else if root.endsWith "/" then root ++ name
  else root ++ "/" ++ name

/-- The settings of a project: those of the first file that is there and holds settings, or else
the defaults. -/
def ofProject (d : Disk) (root : String) : Settings :=
  let loaded := fileNames.findSome? fun name =>
    match ofFile d (fileIn root name) with
    | .ok s => some s
    | .error _ => none
  loaded.getD defaults

end Settings

end LicenseAudit
