import LicenseAudit.Proofs.Report
import LicenseAudit.Proofs.Tally.DeclaredNames
import LicenseAudit.Proofs.Tally.SourceLinks
import LicenseAudit.Review

/-!
# What a review finds

Against listings a review goes through two lists of directories: those on disk, and those that are
declared only. `FaultIn` says what there is to find in one directory of known content, and a
directory that is declared only has no content; so both loops add the same thing for each of their
directories (`mem_get_reviewListing`, `mem_get_reviewAbsent`).

Together they go through every directory that is on disk or declared, and through no directory with
two contents. What is found is therefore **the difference of what is on disk and what is declared,
both ways**. What is wrong with the descriptor itself does not depend on the listings at all
(`mem_duplicate_findings`, `mem_missingSource_findings`).
-/

set_option autoImplicit false

namespace LicenseAudit

/-- The location is on disk. -/
def Listings.Has (ls : Listings) (l : Location) : Prop :=
  ∃ listing ∈ ls, listing.name = l.directory ∧ l.resource ∈ listing.contents

/-- What is on disk in a directory is what its one listing has. -/
theorem Listings.has_iff {ls : Listings} {listing : Listing} (h : listing ∈ ls) {name : String} :
    ls.Has ⟨listing.name, name⟩ ↔ name ∈ listing.contents := by
  constructor
  · intro hhas
    obtain ⟨listing', h', hname, hc⟩ := hhas
    rw [SortedBy.eq_of_key_eq h' h hname] at hc
    exact hc
  · intro hc
    exact ⟨listing, h, rfl, hc⟩

namespace Review

variable {d : Descriptor}

/-! ## The tallies of one directory -/

theorem exists_mem_section? {name : String} {l : Location} {P : Section → Prop} :
    (∃ s ∈ (d.section? name).toList, s.name = l.directory ∧ P s) ↔
      name = l.directory ∧ ∃ s ∈ d.sections, s.name = l.directory ∧ P s := by
  constructor
  · intro h
    obtain ⟨s, hs, hname, hP⟩ := h
    rw [Option.mem_toList, Descriptor.section?_eq_some_iff] at hs
    exact ⟨hs.2.symm.trans hname, s, hs.1, hname, hP⟩
  · intro h
    obtain ⟨rfl, s, hs, hname, hP⟩ := h
    refine ⟨s, ?_, hname, hP⟩
    rw [Option.mem_toList, Descriptor.section?_eq_some_iff]
    exact ⟨hs, hname⟩

theorem holds_namesIn (d : Descriptor) (name : String) :
    DeclaredNames.Holds (d.section? name).toList (namesIn d name) := by
  unfold namesIn Descriptor.walkSection?
  cases d.section? name with
  | none => exact DeclaredNames.holds_start
  | some s => exact DeclaredNames.holds_walk_section s

theorem holds_sourcesIn (d : Descriptor) (name : String) :
    SourceLinks.Holds (d.section? name).toList (sourcesIn d name) := by
  unfold sourcesIn Descriptor.walkSection?
  cases d.section? name with
  | none => exact SourceLinks.holds_start
  | some s => exact SourceLinks.holds_walk_section s

theorem mem_duplicates_namesIn {name : String} {l : Location} :
    l ∈ (namesIn d name).duplicates ↔ name = l.directory ∧ d.Repeats l :=
  ((holds_namesIn d name).duplicates l).trans exists_mem_section?

theorem mem_missing_sourcesIn {name : String} {l : Location} :
    l ∈ (sourcesIn d name).missing ↔ name = l.directory ∧ d.Links false l :=
  ((holds_sourcesIn d name).links false l).trans exists_mem_section?

theorem mem_names_namesIn {name resource : String} :
    resource ∈ (namesIn d name).names ↔ d.Declares ⟨name, resource⟩ := by
  have hholds := holds_namesIn d name
  have hdeclared : ∀ l, l ∈ (namesIn d name).declared ↔ name = l.directory ∧ d.Declares l :=
    fun l => (hholds.declared l).trans exists_mem_section?
  rw [hholds.indexed resource]
  constructor
  · intro h
    obtain ⟨l, hl, rfl⟩ := h
    obtain ⟨rfl, hd⟩ := (hdeclared l).mp hl
    exact hd
  · intro hd
    exact ⟨⟨name, resource⟩, (hdeclared _).mpr ⟨rfl, hd⟩, rfl⟩

/-! ## One directory -/

/-- What there is to find about a location, given what its directory holds on disk. -/
def FaultIn (d : Descriptor) (contents : NameSet) (l : Location) : IssueKind → Prop
  | .missingLicense => l.resource ∈ contents ∧ ¬d.Declares l
  | .extraLicense => d.Declares l ∧ l.resource ∉ contents
  | .duplicate => d.Repeats l
  | .missingSource => d.Links false l

theorem mem_lacking {here there : NameSet} {name : String} :
    name ∈ lacking here there ↔ name ∈ here ∧ name ∉ there := by
  rw [lacking, List.mem_filter, Bool.not_eq_true', NameSet.contains_eq_false_iff]
  exact Iff.rfl

theorem mem_inDirectory {directory : String} {names : List String} {l : Location} :
    l ∈ Locations.inDirectory directory names ↔
      directory = l.directory ∧ l.resource ∈ names := by
  rw [Locations.inDirectory, List.mem_map]
  constructor
  · intro h
    obtain ⟨name, hname, rfl⟩ := h
    exact ⟨rfl, hname⟩
  · intro h
    obtain ⟨rfl, hname⟩ := h
    exact ⟨_, hname, rfl⟩

theorem mem_get_reportTallies {names : DeclaredNames} {sources : SourceLinks} {r : Report}
    {k : IssueKind} {l : Location} :
    l ∈ (reportTallies names sources r).get k ↔
      l ∈ r.get k ∨ k = .duplicate ∧ l ∈ names.duplicates ∨
        k = .missingSource ∧ l ∈ sources.missing := by
  rw [reportTallies, Report.mem_get_extend, Report.mem_get_extend, or_assoc]
  exact Iff.rfl

theorem mem_get_reviewListing {r : Report} {listing : Listing} {k : IssueKind} {l : Location} :
    l ∈ (reviewListing d r listing).get k ↔
      l ∈ r.get k ∨ listing.name = l.directory ∧ FaultIn d listing.contents l k := by
  obtain ⟨directory, resource⟩ := l
  simp only [reviewListing, reviewSection, Report.mem_get_extend, mem_get_reportTallies,
    mem_duplicates_namesIn, mem_missing_sourcesIn, mem_inDirectory, mem_lacking,
    mem_names_namesIn]
  cases k with
  | duplicate => simp only [FaultIn, reduceCtorEq, false_and, true_and, or_false]
  | missingSource => simp only [FaultIn, reduceCtorEq, false_and, true_and, or_false, false_or]
  | extraLicense | missingLicense =>
    simp only [FaultIn, reduceCtorEq, false_and, true_and, or_false]
    exact or_congr Iff.rfl (and_congr_right fun hname => by rw [← hname])

theorem mem_get_reviewAbsent {r : Report} {s : Section} {k : IssueKind} {l : Location} :
    l ∈ (reviewAbsent d r s).get k ↔
      l ∈ r.get k ∨ s.name = l.directory ∧ FaultIn d ∅ l k := by
  obtain ⟨directory, resource⟩ := l
  have hempty : ∀ name, name ∉ (∅ : NameSet) := fun _ => SortedBy.not_mem_empty
  have hnames : ∀ name, name ∈ (namesIn d s.name).names.toList ↔ d.Declares ⟨s.name, name⟩ :=
    fun _ => mem_names_namesIn
  simp only [reviewAbsent, reviewSection, Report.mem_get_extend, mem_get_reportTallies,
    mem_duplicates_namesIn, mem_missing_sourcesIn, mem_inDirectory, hnames]
  cases k with
  | duplicate => simp only [FaultIn, reduceCtorEq, false_and, true_and, or_false]
  | missingSource => simp only [FaultIn, reduceCtorEq, false_and, true_and, or_false, false_or]
  | missingLicense => simp only [FaultIn, reduceCtorEq, false_and, or_false, hempty, and_false]
  | extraLicense =>
    simp only [FaultIn, reduceCtorEq, false_and, true_and, or_false, hempty, not_false_iff,
      and_true]
    exact or_congr Iff.rfl (and_congr_right fun hname => by rw [← hname])

/-! ## All directories -/

theorem exists_mem_absent {ls : Listings} {directory : String} {p : Prop} :
    (∃ s ∈ d.sections.toList.filter (fun s => !ls.contains s.name), s.name = directory ∧ p) ↔
      (¬∃ listing ∈ ls, listing.name = directory) ∧ (∃ s ∈ d.sections, s.name = directory) ∧ p := by
  constructor
  · intro h
    obtain ⟨s, hs, rfl, hp⟩ := h
    rw [List.mem_filter, Bool.not_eq_true'] at hs
    refine ⟨fun hl => ?_, ⟨s, hs.1, rfl⟩, hp⟩
    rw [SortedBy.contains_iff.mpr hl] at hs
    cases hs.2
  · intro h
    obtain ⟨hl, ⟨s, hs, rfl⟩, hp⟩ := h
    refine ⟨s, List.mem_filter.mpr ⟨hs, ?_⟩, rfl, hp⟩
    rw [Bool.not_eq_true', Bool.eq_false_iff]
    intro hc
    exact hl (SortedBy.contains_iff.mp hc)

/-- What is found about a location is found in its directory, with the content that it has on disk
or, where it is only declared, with none. -/
theorem mem_get_findings {ls : Listings} {k : IssueKind} {l : Location} :
    l ∈ (findings (some ls) d).get k ↔
      (∃ listing ∈ ls, listing.name = l.directory ∧ FaultIn d listing.contents l k) ∨
        (¬∃ listing ∈ ls, listing.name = l.directory) ∧
          (∃ s ∈ d.sections, s.name = l.directory) ∧ FaultIn d ∅ l k := by
  have hboth : findings (some ls) d =
      (d.sections.toList.filter fun s => !ls.contains s.name).foldl (reviewAbsent d)
        (ls.toList.foldl (reviewListing d) .fresh) := rfl
  have hlisting : ∀ r listing, l ∈ (reviewListing d r listing).get k ↔
      l ∈ r.get k ∨ listing.name = l.directory ∧ FaultIn d listing.contents l k :=
    fun _ _ => mem_get_reviewListing
  have habsent : ∀ r s, l ∈ (reviewAbsent d r s).get k ↔
      l ∈ r.get k ∨ s.name = l.directory ∧ FaultIn d ∅ l k := fun _ _ => mem_get_reviewAbsent
  rw [hboth, Report.mem_get_foldl habsent, Report.mem_get_foldl hlisting, exists_mem_absent,
    or_iff_right Report.not_mem_get_fresh]
  exact Iff.rfl

/-- A fault that does not depend on the content, of a directory that is declared, is found. -/
theorem mem_get_findings_of_declared {ls : Listings} {k : IssueKind} {l : Location}
    (hk : ∀ contents, FaultIn d contents l k ↔ FaultIn d ∅ l k)
    (hs : FaultIn d ∅ l k → ∃ s ∈ d.sections, s.name = l.directory) :
    l ∈ (findings (some ls) d).get k ↔ FaultIn d ∅ l k := by
  rw [mem_get_findings]
  constructor
  · intro h
    rcases h with ⟨listing, -, -, hf⟩ | ⟨-, -, hf⟩
    · exact (hk _).mp hf
    · exact hf
  · intro hf
    by_cases hl : ∃ listing ∈ ls, listing.name = l.directory
    · obtain ⟨listing, hlisting, hname⟩ := hl
      exact .inl ⟨listing, hlisting, hname, (hk _).mpr hf⟩
    · exact .inr ⟨hl, hs hf, hf⟩

/-- What lacks a license is what is on disk and not declared. -/
theorem mem_missingLicense_findings {ls : Listings} {l : Location} :
    l ∈ (findings (some ls) d).get .missingLicense ↔ ls.Has l ∧ ¬d.Declares l := by
  rw [mem_get_findings]
  constructor
  · intro h
    rcases h with ⟨listing, hl, hname, hmem, hd⟩ | ⟨-, -, hmem, -⟩
    · exact ⟨⟨listing, hl, hname, hmem⟩, hd⟩
    · exact absurd hmem SortedBy.not_mem_empty
  · intro h
    obtain ⟨⟨listing, hl, hname, hmem⟩, hd⟩ := h
    exact .inl ⟨listing, hl, hname, hmem, hd⟩

/-- What has a license too many is what is declared and not on disk. -/
theorem mem_extraLicense_findings {ls : Listings} {l : Location} :
    l ∈ (findings (some ls) d).get .extraLicense ↔ d.Declares l ∧ ¬ls.Has l := by
  obtain ⟨directory, resource⟩ := l
  rw [mem_get_findings]
  constructor
  · intro h
    rcases h with ⟨listing, hl, rfl, hd, hmem⟩ | ⟨hnone, -, hd, -⟩
    · refine ⟨hd, ?_⟩
      rw [Listings.has_iff hl]
      exact hmem
    · refine ⟨hd, ?_⟩
      intro hhas
      obtain ⟨listing, hl, hname, -⟩ := hhas
      exact hnone ⟨listing, hl, hname⟩
  · intro h
    obtain ⟨hd, hhas⟩ := h
    by_cases hl : ∃ listing ∈ ls, listing.name = directory
    · obtain ⟨listing, hlisting, rfl⟩ := hl
      rw [Listings.has_iff hlisting] at hhas
      exact .inl ⟨listing, hlisting, rfl, hd, hhas⟩
    · have hsection : ∃ s ∈ d.sections, s.name = directory :=
        hd.imp fun s hs => ⟨hs.1, hs.2.1⟩
      exact .inr ⟨hl, hsection, hd, SortedBy.not_mem_empty⟩

/-- Without listings no license is found missing, nor one too many. -/
theorem mem_findings_none {k : IssueKind} {l : Location} :
    l ∈ (findings none d).get k ↔
      k = .duplicate ∧ d.Repeats l ∨ k = .missingSource ∧ d.Links false l := by
  show l ∈ (reportTallies (d.walk DeclaredNames.walker .start) (d.walk SourceLinks.walker .start)
    .fresh).get k ↔ _
  rw [mem_get_reportTallies, or_iff_right Report.not_mem_get_fresh,
    (DeclaredNames.holds_walk d).duplicates]
  exact or_congr Iff.rfl (and_congr_right fun _ => (SourceLinks.holds_walk d).links false l)

/-- What is found to be declared twice is so, wherever the review looks. -/
theorem mem_duplicate_findings {listings : Option Listings} {l : Location} :
    l ∈ (findings listings d).get .duplicate ↔ d.Repeats l := by
  cases listings with
  | some ls =>
    refine mem_get_findings_of_declared (fun _ => Iff.rfl) ?_
    intro h
    obtain ⟨s, hs, hname, -⟩ := h
    exact ⟨s, hs, hname⟩
  | none =>
    rw [mem_findings_none]
    simp only [reduceCtorEq, true_and, false_and, or_false]

/-- What is found to lack its source does so, wherever the review looks. -/
theorem mem_missingSource_findings {listings : Option Listings} {l : Location} :
    l ∈ (findings listings d).get .missingSource ↔ d.Links false l := by
  cases listings with
  | some ls =>
    refine mem_get_findings_of_declared (fun _ => Iff.rfl) ?_
    intro h
    obtain ⟨s, hs, hname, -⟩ := h
    exact ⟨s, hs, hname⟩
  | none =>
    rw [mem_findings_none]
    simp only [reduceCtorEq, true_and, false_and, false_or]

/-- A review finds something or nothing under each kind, and leaves none out. -/
theorem full_findings (listings : Option Listings) (d : Descriptor) :
    (findings listings d).Full := by
  have htallies : ∀ names sources (r : Report), r.Full → (reportTallies names sources r).Full :=
    fun _ _ _ h => (h.extend _ _).extend _ _
  cases listings with
  | none => exact htallies _ _ _ Report.full_fresh
  | some ls =>
    have hlisting : ∀ r listing, r.Full → (reviewListing d r listing).Full :=
      fun r _ h => ((htallies _ _ r h).extend _ _).extend _ _
    have habsent : ∀ r s, r.Full → (reviewAbsent d r s).Full :=
      fun r _ h => (htallies _ _ r h).extend _ _
    exact .foldl habsent _ (.foldl hlisting _ Report.full_fresh)

/-- What is reported under a kind is known by its members. -/
theorem bucket?_findings_eq {listings : Option Listings} {k : IssueKind} {ls : Locations}
    (h : ∀ l, l ∈ (findings listings d).get k ↔ l ∈ ls) :
    (findings listings d).bucket? k = some ls := by
  rw [full_findings listings d k]
  exact congrArg some (SortedBy.ext_mem h)

/-! ## Nothing to find -/

theorem isValid_findings_none : (findings none d).isValid = true ↔ d.Sound := by
  rw [Report.isValid_iff, Descriptor.sound_iff]
  simp only [mem_findings_none]
  constructor
  · intro h
    exact ⟨fun l hl => h .duplicate l (.inl ⟨rfl, hl⟩),
      fun l hl => h .missingSource l (.inr ⟨rfl, hl⟩)⟩
  · intro hx k l hy
    obtain ⟨hrepeats, hlinks⟩ := hx
    rcases hy with ⟨-, hl⟩ | ⟨-, hl⟩
    · exact hrepeats l hl
    · exact hlinks l hl

/-- A review against listings finds nothing exactly if what is declared is what is on disk, and
nothing is wrong with the descriptor itself. -/
theorem isValid_findings_some {ls : Listings} :
    (findings (some ls) d).isValid = true ↔ (∀ l, ls.Has l ↔ d.Declares l) ∧ d.Sound := by
  rw [Report.isValid_iff, Descriptor.sound_iff]
  constructor
  · intro h
    refine ⟨fun l => ⟨fun hhas => ?_, fun hd => ?_⟩, fun l hl => ?_, fun l hl => ?_⟩
    · by_contra hd
      exact h .missingLicense l (mem_missingLicense_findings.mpr ⟨hhas, hd⟩)
    · by_contra hhas
      exact h .extraLicense l (mem_extraLicense_findings.mpr ⟨hd, hhas⟩)
    · exact h .duplicate l (mem_duplicate_findings.mpr hl)
    · exact h .missingSource l (mem_missingSource_findings.mpr hl)
  · intro hx k l hl
    obtain ⟨hsame, hrepeats, hlinks⟩ := hx
    cases k with
    | missingLicense =>
      obtain ⟨hhas, hd⟩ := mem_missingLicense_findings.mp hl
      exact hd ((hsame l).mp hhas)
    | extraLicense =>
      obtain ⟨hd, hhas⟩ := mem_extraLicense_findings.mp hl
      exact hhas ((hsame l).mpr hd)
    | duplicate => exact hrepeats l (mem_duplicate_findings.mp hl)
    | missingSource => exact hlinks l (mem_missingSource_findings.mp hl)

end Review

end LicenseAudit
