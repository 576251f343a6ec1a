import LicenseAudit.Json.Printer
import LicenseAudit.Json.Reader
import LicenseAudit.Report.Basic

/-!
# Reports as JSON

A report is written as an object with a member for each bucket, which holds the locations of that
kind, each an object of its directory and its resource. Only buckets that exist are written, so
reading what was written gives the same report again.

Reading takes a little more than writing gives. A location may also be a pair of strings, and may
have further members, which are passed over. A kind that is named twice has its last bucket.
-/

set_option autoImplicit false

namespace LicenseAudit

def Location.toJson (l : Location) : Json :=
  .ofMembers [("directory", .ofText l.directory), ("resource", .ofText l.resource)]

namespace Location

def textOfJson? : Json → Option String
  | .string (.text s) => some s
  | _ => none

/-- The value of the one member of this name. -/
def member? (members : List (JsonText × Json)) (name : String) : Option Json :=
  match members.filter fun m => m.1 == .text name with
  | [m] => some m.2
  | _ => none

/-- The location that a JSON value stands for. -/
def ofJson? : Json → Option Location
  | .array [directory, resource] => do
    return ⟨← textOfJson? directory, ← textOfJson? resource⟩
  | .object members =>
    if members.any fun m => m.1 == .broken then none
    else do
      let directory ← member? members "directory"
      let resource ← member? members "resource"
      return ⟨← textOfJson? directory, ← textOfJson? resource⟩
  | _ => none

end Location

namespace Report

def toJson (r : Report) : Json :=
  .ofMembers (r.buckets.map fun b => (b.1.name, .array (b.2.toList.map Location.toJson)))

/-- Reads the bucket of one member into a report. -/
def readMember (r : Report) (member : JsonText × Json) : Option Report :=
  match member with
  | (.text name, .array items) => do
    let kind ← IssueKind.ofName? name
    let locations ← items.mapM Location.ofJson?
    return r.setBucket kind (.ofList locations)
  | _ => none

/-- The report that a JSON value stands for. -/
def ofJson? : Json → Option Report
  | .object members => members.foldlM readMember .bare
  | _ => none

def toJsonText (r : Report) : String := r.toJson.text

/-- The report that a JSON text stands for. -/
def ofJsonText? (s : String) : Option Report := Json.read? s >>= ofJson?

end Report

end LicenseAudit
