import LicenseAudit.Location

/-!
# The report of an audit

A `Report` holds the locations at fault, sorted into four kinds of issue. A fresh report has a
bucket for each kind, empty at first. A report that was read from a text has only the buckets
that the text names; `Report.get` reads an absent bucket as an empty one, so the difference shows
only when two reports are compared as a whole or written out.
-/

set_option autoImplicit false

namespace LicenseAudit

/-- What can be wrong with a resource. -/
inductive IssueKind where
  /-- On disk, but not declared. -/
  | missingLicense
  /-- Declared, but not on disk. -/
  | extraLicense
  /-- Declared more than once in one directory. -/
  | duplicate
  /-- Under a license that requires a link to the source, without one. -/
  | missingSource
deriving DecidableEq, Inhabited

namespace IssueKind

/-- The kinds, in their order. -/
def all : List IssueKind := [.missingLicense, .extraLicense, .duplicate, .missingSource]

theorem mem_all (k : IssueKind) : k ∈ all := by cases k <;> decide

def rank : IssueKind → Nat
  | .missingLicense => 0
  | .extraLicense => 1
  | .duplicate => 2
  | .missingSource => 3

/-- The heading of a kind in a report that people read. -/
def label : IssueKind → String
  | .missingLicense => "Missing license(s)"
  | .extraLicense => "Extra license(s)"
  | .duplicate => "Duplicate resource(s)"
  | .missingSource => "Missing link to source"

/-- The name of a kind in a report that programs read. -/
def name : IssueKind → String
  | .missingLicense => "MISSING_LICENSE"
  | .extraLicense => "EXTRA_LICENSE"
  | .duplicate => "DUPLICATE"
  | .missingSource => "MISSING_SOURCE"

def ofName? (name : String) : Option IssueKind := all.find? fun k => k.name == name

theorem ofName?_name (k : IssueKind) : ofName? k.name = some k := by cases k <;> decide

end IssueKind

/-- The locations at fault, a bucket for each kind of issue. -/
structure Report where
  missingLicense : Option Locations
  extraLicense : Option Locations
  duplicate : Option Locations
  missingSource : Option Locations
deriving DecidableEq

namespace Report

/-- The report with an empty bucket for each kind. -/
def fresh : Report := ⟨some ∅, some ∅, some ∅, some ∅⟩

def bare : Report := ⟨none, none, none, none⟩

instance : Inhabited Report := ⟨fresh⟩

def bucket? (r : Report) : IssueKind → Option Locations
  | .missingLicense => r.missingLicense
  | .extraLicense => r.extraLicense
  | .duplicate => r.duplicate
  | .missingSource => r.missingSource

def setBucket (r : Report) (k : IssueKind) (ls : Locations) : Report :=
  match k with
  | .missingLicense => { r with missingLicense := some ls }
  | .extraLicense => { r with extraLicense := some ls }
  | .duplicate => { r with duplicate := some ls }
  | .missingSource => { r with missingSource := some ls }

theorem bucket?_setBucket (r : Report) (k j : IssueKind) (ls : Locations) :
    (r.setBucket k ls).bucket? j = if j = k then some ls else r.bucket? j := by
  cases k <;> cases j <;> rfl

theorem ext_bucket? {r s : Report} (h : ∀ k, r.bucket? k = s.bucket? k) : r = s := by
  cases r; cases s
  simp only [mk.injEq]
  exact ⟨h .missingLicense, h .extraLicense, h .duplicate, h .missingSource⟩

/-- The locations reported for a kind; an absent bucket reads as an empty one. -/
def get (r : Report) (k : IssueKind) : Locations := (r.bucket? k).getD ∅

/-- Reports locations under a kind, whose bucket exists afterwards. -/
def extend (r : Report) (k : IssueKind) (ls : List Location) : Report :=
  r.setBucket k ((r.get k).insertAll ls)

/-- Reports one location under a kind. -/
def add (r : Report) (k : IssueKind) (l : Location) : Report := r.extend k [l]

/-- The buckets that exist, in the order of the kinds. -/
def buckets (r : Report) : List (IssueKind × Locations) :=
  IssueKind.all.filterMap fun k => (r.bucket? k).map (k, ·)

def isValid (r : Report) : Bool := r.buckets.all fun b => b.2.isEmpty

/-- A report is empty when it is valid: empty buckets do not count. -/
def isEmpty (r : Report) : Bool := r.isValid

/-- How many locations are reported, over all kinds. -/
def size (r : Report) : Nat := r.buckets.foldl (fun n b => n + b.2.size) 0

/-- The buckets with something in them, in the order of the kinds. -/
def nonempty (r : Report) : List (IssueKind × Locations) :=
  r.buckets.filter fun b => !b.2.isEmpty

/-- The lines of one bucket: the kind's heading, then one line for each location. -/
def bucketText (b : IssueKind × Locations) : String :=
  b.1.label ++ ":\n" ++
    String.join (b.2.toList.map fun l => "  " ++ l.resource ++ " (in " ++ l.directory ++ ")\n")

/-- The report as people read it: nothing at all when nothing is reported. -/
def text (r : Report) : String := String.join (r.nonempty.map bucketText)

/-- The one message that carries a whole report. -/
def failureText (r : Report) : String :=
  "Licensing descriptor is invalid (" ++ toString r.size ++ " issue(s)):\n" ++ r.text

end Report

end LicenseAudit
