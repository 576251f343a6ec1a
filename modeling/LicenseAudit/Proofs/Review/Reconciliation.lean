import LicenseAudit.Proofs.Review.Findings

/-!
# Reconciling a descriptor with what is on disk

A review with listings compares two sets of locations, those on disk and those declared, and
reports the two differences. Every run of a review starts afresh, so which runs were made before
has no part in it.

The listings have no part in what is wrong with the descriptor itself. Against listings that is
looked for directory by directory, with fresh tallies, and otherwise in one walk of the descriptor;
both find the same (`run_agrees`).
-/

set_option autoImplicit false

namespace LicenseAudit

namespace Review

theorem listings_run (r : Review) (d : Descriptor) : (r.run d).listings = r.listings := rfl

theorem report_run {ls : Listings} {r : Review} (h : r.listings = some ls) (d : Descriptor) :
    (r.run d).report = findings (some ls) d := by
  rw [← h]
  rfl

/-- After a run what lacks a license is what is on disk and not declared, and what has a license
too many is what is declared and not on disk, whatever the review was before. -/
theorem run_reconciles {ls : Listings} {r : Review} (h : r.listings = some ls) (d : Descriptor) :
    (∀ l, l ∈ (r.run d).report.get .missingLicense ↔ ls.Has l ∧ ¬d.Declares l) ∧
      (∀ l, l ∈ (r.run d).report.get .extraLicense ↔ d.Declares l ∧ ¬ls.Has l) ∧
      (∀ l, ¬(l ∈ (r.run d).report.get .missingLicense ∧
        l ∈ (r.run d).report.get .extraLicense)) ∧
      (∀ l, ls.Has l ∨ d.Declares l → l ∉ (r.run d).report.get .missingLicense →
        l ∉ (r.run d).report.get .extraLicense → ls.Has l ∧ d.Declares l) ∧
      r.run d = (ofListings ls).run d ∧ (r.validate d).1 = r.run d ∧
      (r.run d).listings = some ls := by
  have hmissing : ∀ l, l ∈ (r.run d).report.get .missingLicense ↔ ls.Has l ∧ ¬d.Declares l := by
    intro l
    rw [report_run h]
    exact mem_missingLicense_findings
  have hextra : ∀ l, l ∈ (r.run d).report.get .extraLicense ↔ d.Declares l ∧ ¬ls.Has l := by
    intro l
    rw [report_run h]
    exact mem_extraLicense_findings
  have hfresh : r.run d = (ofListings ls).run d := by
    show (⟨r.listings, findings r.listings d⟩ : Review) = ⟨some ls, findings (some ls) d⟩
    rw [h]
  refine ⟨hmissing, hextra, ?_, ?_, hfresh, rfl, (listings_run r d).trans h⟩
  · intro l hboth
    exact ((hmissing l).mp hboth.1).2 ((hextra l).mp hboth.2).1
  · intro l hl hm he
    rw [hmissing] at hm
    rw [hextra] at he
    by_cases hd : d.Declares l
    · exact ⟨Classical.not_not.mp fun hn => he ⟨hd, hn⟩, hd⟩
    · exact absurd ⟨hl.resolve_right hd, hd⟩ hm

theorem has_single {directory : String} {names : List String} {l : Location} :
    Listings.Has (.ofList [⟨directory, .ofList names⟩]) l ↔
      directory = l.directory ∧ l.resource ∈ names := by
  have hnodup : (([⟨directory, .ofList names⟩] : List Listing).map Listing.name).Nodup :=
    List.pairwise_singleton _ _
  have hnames : ∀ name, name ∈ (SortedBy.ofList names : NameSet) ↔ name ∈ names :=
    fun _ => SortedBy.mem_ofList fun _ _ h => h
  simp only [Listings.Has, SortedBy.mem_ofList_of_nodup hnodup, List.mem_singleton, exists_eq_left,
    hnames]

/-- An earlier run, of another descriptor, leaves nothing behind. -/
theorem run_reconciles_after_run :
    ∃ (ls : Listings) (r : Review), r.listings = some ls ∧
      ⟨"b", "w"⟩ ∈ r.report.get .extraLicense ∧
      ⟨"b", "w"⟩ ∉ (r.run (Descriptor.publicIn "a" ["y"])).report.get .extraLicense ∧
      ⟨"a", "x"⟩ ∈ (r.run (Descriptor.publicIn "a" ["y"])).report.get .missingLicense ∧
      ⟨"a", "y"⟩ ∈ (r.run (Descriptor.publicIn "a" ["y"])).report.get .extraLicense := by
  let ls : Listings := .ofList [⟨"a", .ofList ["x"]⟩]
  let r : Review := (ofListings ls).run (Descriptor.publicIn "b" ["w"])
  obtain ⟨hmissing, hextra, -⟩ := @run_reconciles ls r rfl (Descriptor.publicIn "a" ["y"])
  refine ⟨ls, r, rfl, ?_, ?_, ?_, ?_⟩
  · rw [report_run rfl, mem_extraLicense_findings, has_single, Descriptor.declares_publicIn]
    decide
  · rw [hextra, has_single, Descriptor.declares_publicIn]
    decide
  · rw [hmissing, has_single, Descriptor.declares_publicIn]
    decide
  · rw [hextra, has_single, Descriptor.declares_publicIn]
    decide

/-- A review against listings and one of the descriptor alone agree on what is wrong with the
descriptor itself, whatever the listings are and whatever was reviewed before. -/
theorem run_agrees (ls : Listings) (d : Descriptor) (before before' : Report) :
    let audit := ((⟨some ls, before⟩ : Review).run d).report
    let whole := ((⟨none, before'⟩ : Review).run d).report
    audit.bucket? .duplicate = whole.bucket? .duplicate ∧
      audit.bucket? .missingSource = whole.bucket? .missingSource ∧
      (∀ l, l ∈ audit.get .duplicate ↔ d.Repeats l) ∧
      ∀ l, l ∈ audit.get .missingSource ↔ d.Links false l := by
  have hsame : ∀ k, (∀ l, l ∈ (findings (some ls) d).get k ↔ l ∈ (findings none d).get k) →
      (findings (some ls) d).bucket? k = (findings none d).bucket? k := by
    intro k h
    rw [full_findings _ _ k, full_findings _ _ k]
    exact congrArg some (SortedBy.ext_mem h)
  refine ⟨hsame .duplicate ?_, hsame .missingSource ?_, fun l => mem_duplicate_findings,
    fun l => mem_missingSource_findings⟩
  · intro l
    rw [mem_duplicate_findings, mem_duplicate_findings]
  · intro l
    rw [mem_missingSource_findings, mem_missingSource_findings]

end Review

end LicenseAudit
