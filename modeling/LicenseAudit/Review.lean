import LicenseAudit.Fault
import LicenseAudit.Listing
import LicenseAudit.Tally.DeclaredNames
import LicenseAudit.Tally.SourceLinks

/-!
# Reviewing a descriptor

A descriptor is always reviewed against itself: no resource may be declared twice in a directory,
and none may lack a source that its license requires. With listings of the distribution it is also
reviewed against them: what is on disk must be declared and what is declared must be on disk.

Against listings the review goes directory by directory, first through those on disk, then through
those that are declared only; each is tallied afresh. `Review.run` starts from a fresh report, so
nothing of an earlier run is left in it.
-/

set_option autoImplicit false

namespace LicenseAudit

structure Review where
  /-- What is on disk, if the review looks there. -/
  listings : Option Listings
  report : Report
deriving DecidableEq

namespace Review

/-- A review of the descriptor against itself. -/
def ofDescriptor : Review := ⟨none, .fresh⟩

/-- A review against what is on disk as well. -/
def ofListings (ls : Listings) : Review := ⟨some ls, .fresh⟩

def isAudit (r : Review) : Bool := r.listings.isSome

def isValid (r : Review) : Bool := r.report.isValid

/-- Reports what two tallies found. -/
def reportTallies (names : DeclaredNames) (sources : SourceLinks) (r : Report) : Report :=
  (r.extend .duplicate names.duplicates.toList).extend .missingSource sources.missing.toList

/-- Reviews a whole descriptor against itself. -/
def reviewWhole (d : Descriptor) (r : Report) : Report :=
  reportTallies (d.walk DeclaredNames.walker .start) (d.walk SourceLinks.walker .start) r

/-- The tally of the names declared for one directory; empty where nothing is. -/
def namesIn (d : Descriptor) (name : String) : DeclaredNames :=
  (d.walkSection? name DeclaredNames.walker .start).getD .start

/-- The tally of the sources given for one directory; empty where nothing is declared. -/
def sourcesIn (d : Descriptor) (name : String) : SourceLinks :=
  (d.walkSection? name SourceLinks.walker .start).getD .start

/-- Reviews one directory of a descriptor against itself. -/
def reviewSection (d : Descriptor) (name : String) (r : Report) : Report :=
  reportTallies (namesIn d name) (sourcesIn d name) r

def lacking (here there : NameSet) : List String :=
  here.toList.filter fun name => !there.contains name

def reviewListing (d : Descriptor) (r : Report) (l : Listing) : Report :=
  let declared := (namesIn d l.name).names
  let r := reviewSection d l.name r
  let r := r.extend .extraLicense (Locations.inDirectory l.name (lacking declared l.contents))
  r.extend .missingLicense (Locations.inDirectory l.name (lacking l.contents declared))

/-- Reviews a directory that is declared but not on disk. -/
def reviewAbsent (d : Descriptor) (r : Report) (s : Section) : Report :=
  let declared := (namesIn d s.name).names
  (reviewSection d s.name r).extend .extraLicense (Locations.inDirectory s.name declared.toList)

/-- Reviews a descriptor against itself and what is on disk. -/
def reviewAgainst (d : Descriptor) (ls : Listings) (r : Report) : Report :=
  let r := ls.toList.foldl (reviewListing d) r
  (d.sections.toList.filter fun s => !ls.contains s.name).foldl (reviewAbsent d) r

/-- Everything wrong with a descriptor. -/
def findings (listings : Option Listings) (d : Descriptor) : Report :=
  match listings with
  | none => reviewWhole d .fresh
  | some ls => reviewAgainst d ls .fresh

/-- Runs the review, whose report is then that of this run. -/
def run (r : Review) (d : Descriptor) : Review := { r with report := findings r.listings d }

/-- Runs the review and passes the descriptor on if nothing is wrong with it. -/
def validate (r : Review) (d : Descriptor) : Review × Except Fault Descriptor :=
  let r := r.run d
  (r, if r.isValid then .ok d else .error (.invalid r.report))

end Review

end LicenseAudit
