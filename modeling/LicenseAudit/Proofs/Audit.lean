import LicenseAudit.Audit
import LicenseAudit.Proofs.Review.Findings
import LicenseAudit.Proofs.Scan.Names

/-!
# What an audit decides

An audit passes a descriptor on exactly if nothing is wrong with it, and otherwise refuses it with
everything that is wrong. `Decides` says this of a condition on the descriptor. Without a
distribution the condition is that nothing is wrong with the descriptor itself; with one, whose
names can be read, it is moreover that the descriptor `Matches` it, directory by directory. A scan
that fails decides nothing: its fault is the audit's.
-/

set_option autoImplicit false

namespace LicenseAudit

namespace Audit

variable {disk : Disk} {s : Settings} {d : Descriptor}

/-! ## From the review to the audit -/

/-- The audit passes the descriptor on exactly if the condition holds, and otherwise refuses it with
the report, which is then not empty. -/
def Decides (disk : Disk) (s : Settings) (d : Descriptor) (P : Prop) : Prop :=
  ∃ r, report disk s d = .ok r ∧ (run disk s d = .ok ⟨d, s.includeSourceUrls⟩ ↔ P) ∧
    (¬P → run disk s d = .error (.invalid r) ∧ ∃ k l, l ∈ r.get k)

theorem run_eq_of_review {r : Review} (h : review disk s = .ok r) :
    run disk s d = if (r.run d).isValid then .ok ⟨d, s.includeSourceUrls⟩
      else .error (.invalid (r.run d).report) := by
  simp only [run, h, bind, Except.bind, Review.validate]
  cases (r.run d).isValid with
  | true => rfl
  | false => rfl

theorem decides_of_review {r : Review} {P : Prop} (h : review disk s = .ok r)
    (hP : (Review.findings r.listings d).isValid = true ↔ P) : Decides disk s d P := by
  have hreport : report disk s d = .ok (Review.findings r.listings d) := by
    unfold report
    rw [h]
    rfl
  have hrun : run disk s d = if (Review.findings r.listings d).isValid
      then .ok ⟨d, s.includeSourceUrls⟩ else .error (.invalid (Review.findings r.listings d)) :=
    run_eq_of_review h
  refine ⟨_, hreport, ?_, fun hnot => ?_⟩
  · rw [hrun, ← hP]
    split
    · simp [*]
    · simp [*]
  · rw [← hP] at hnot
    rw [hrun, if_neg hnot]
    refine ⟨rfl, ?_⟩
    by_contra hnone
    apply hnot
    apply Report.isValid_iff.mpr
    intro k l hl
    exact hnone ⟨k, l, hl⟩

theorem fails_of_listings {f : Fault} (h : listings disk s = .error f) :
    run disk s d = .error f ∧ report disk s d = .error f := by
  have hreview : review disk s = .error f := by
    unfold review
    rw [h]
    rfl
  constructor
  · unfold run
    rw [hreview]
    rfl
  · unfold report
    rw [hreview]
    rfl

theorem listings_of_sourceDir {root : String} (h : s.sourceDir = some root) :
    listings disk s = (do
      let scan ← Scan.plan disk root
      return some (← (scan.ignoring s.ignore).run disk)) := by
  unfold listings
  rw [h]

/-! ## Matching a distribution -/

/-- Each directory that was listed declares what it holds, and no other directory declares
anything. -/
structure Matches (disk : Disk) (ignore : List String) (visits : List Scan.Visit) (ls : Listings)
    (d : Descriptor) : Prop where
  -- what a listed directory declares are its entries that stand for no directory, but for those
  -- left out
  content : ∀ v ∈ visits, ∀ name, d.Declares ⟨v.work.name, name⟩ ↔
    ∃ e ∈ disk.entries v.work.path, e.1.text = name ∧ name ∉ ignore ∧
      disk.directoryAt? (e.1 :: v.work.path) e.2 = none
  -- a directory without a record declares nothing
  absent : ∀ c ∈ d.sections, (∀ listing ∈ ls, listing.name ≠ c.name) → c.names = []

theorem ignored_plan {root : String} {scan : Scan} (h : Scan.plan disk root = .ok scan)
    {name : String} : name ∈ (scan.ignoring s.ignore).ignored ↔ name ∈ s.ignore := by
  unfold Scan.plan at h
  split at h
  · cases h
  · cases h
    exact NameSet.mem_insertAll.trans (or_iff_right SortedBy.not_mem_empty)
  · cases h

theorem mem_contents_iff {ignored : NameSet} {ignore : List String}
    (hignore : ∀ name, name ∈ ignored ↔ name ∈ ignore) {v : Scan.Visit}
    (h : Scan.Records disk ignored v.listing v.work.path) {name : String} :
    name ∈ v.listing.contents ↔
      ∃ e ∈ disk.entries v.work.path, e.1.text = name ∧ name ∉ ignore ∧
        disk.directoryAt? (e.1 :: v.work.path) e.2 = none := by
  rw [h name]
  constructor
  · intro hx
    obtain ⟨e, he, rfl, hnone⟩ := hx
    rw [Scan.mem_kept, hignore] at he
    exact ⟨e, he.1, rfl, he.2, hnone⟩
  · intro hx
    obtain ⟨e, he, rfl, hkept, hnone⟩ := hx
    rw [← hignore] at hkept
    exact ⟨e, Scan.mem_kept.mpr ⟨he, hkept⟩, rfl, hnone⟩

/-- A descriptor matches a distribution exactly if it declares what is on disk. -/
theorem matches_iff {ignored : NameSet} {ignore : List String}
    (hignore : ∀ name, name ∈ ignored ↔ name ∈ ignore) {visits : List Scan.Visit} {ls : Listings}
    (hls : ∀ l, l ∈ ls ↔ ∃ v ∈ visits, v.listing = l)
    (hrecords : ∀ v ∈ visits, Scan.Records disk ignored v.listing v.work.path) :
    (∀ l, ls.Has l ↔ d.Declares l) ↔ Matches disk ignore visits ls d := by
  have hhas : ∀ v ∈ visits, ∀ name, ls.Has ⟨v.work.name, name⟩ ↔
      ∃ e ∈ disk.entries v.work.path, e.1.text = name ∧ name ∉ ignore ∧
        disk.directoryAt? (e.1 :: v.work.path) e.2 = none := by
    intro v hv name
    have hmem : v.listing ∈ ls := (hls _).mpr ⟨v, hv, rfl⟩
    exact (Listings.has_iff hmem).trans (mem_contents_iff hignore (hrecords v hv))
  constructor
  · intro h
    constructor
    · intro v hv name
      rw [← h, hhas v hv]
    · intro c hc hnone
      apply List.eq_nil_iff_forall_not_mem.mpr
      intro name hname
      obtain ⟨listing, hl, hlname, -⟩ := (h ⟨c.name, name⟩).mpr ⟨c, hc, rfl, hname⟩
      exact hnone listing hl hlname
  · intro h l
    obtain ⟨directory, resource⟩ := l
    by_cases hlisted : ∃ listing ∈ ls, listing.name = directory
    · obtain ⟨listing, hl, rfl⟩ := hlisted
      obtain ⟨v, hv, rfl⟩ := (hls _).mp hl
      exact (hhas v hv resource).trans (h.content v hv resource).symm
    · -- a directory that was not listed has nothing on disk, and declares nothing
      constructor
      · intro hx
        obtain ⟨listing, hl, hname, -⟩ := hx
        exact absurd ⟨listing, hl, hname⟩ hlisted
      · intro hx
        obtain ⟨c, hc, rfl, hname⟩ := hx
        have hnone : ∀ listing ∈ ls, listing.name ≠ c.name := fun listing hl hlname =>
          hlisted ⟨listing, hl, hlname⟩
        rw [h.absent c hc hnone] at hname
        cases hname

/-! ## The audit -/

/-- An audit decides whether nothing is wrong with the descriptor and, with a distribution, whether
the descriptor matches it. If the scan of the distribution fails, so does the audit. -/
theorem run_decides (hd : disk.Legible) (s : Settings) (d : Descriptor) :
    (s.sourceDir = none → Decides disk s d d.Sound) ∧
      ∀ root, s.sourceDir = some root →
        (∀ f, Scan.plan disk root = .error f →
          run disk s d = .error f ∧ report disk s d = .error f) ∧
        ∀ scan, Scan.plan disk root = .ok scan →
          (∀ f, (scan.ignoring s.ignore).run disk = .error f →
            run disk s d = .error f ∧ report disk s d = .error f) ∧
          ∀ ls, (scan.ignoring s.ignore).run disk = .ok ls →
            ∃ visits, (scan.ignoring s.ignore).visits disk = .ok visits ∧
              Decides disk s d (Matches disk s.ignore visits ls d ∧ d.Sound) := by
  refine ⟨fun hnone => ?_, fun root hroot => ⟨fun f hf => ?_, fun scan hplan =>
    ⟨fun f hf => ?_, fun ls hrun => ?_⟩⟩⟩
  · have hreview : review disk s = .ok .ofDescriptor := by
      unfold review listings
      rw [hnone]
      rfl
    exact decides_of_review hreview Review.isValid_findings_none
  · apply fails_of_listings
    rw [listings_of_sourceDir hroot, hf]
    rfl
  · apply fails_of_listings
    simp only [listings_of_sourceDir hroot, hplan, bind, Except.bind, hf]
  · have hreview : review disk s = .ok (.ofListings ls) := by
      simp only [review, listings_of_sourceDir hroot, hplan, bind, Except.bind, hrun]
      rfl
    obtain ⟨visits, hvisits, rfl⟩ := Scan.run_eq_ok_iff.mp hrun
    obtain ⟨hls, hrecords⟩ := Scan.listings_of_visits hd hvisits
    refine ⟨visits, hvisits, decides_of_review hreview ?_⟩
    have hmatches := @matches_iff disk d _ _ (fun _ => ignored_plan hplan) visits _ hls hrecords
    exact Review.isValid_findings_some.trans (and_congr_left' hmatches)

/-- The file of a tangled disk is declared in the directory that really holds it. -/
theorem run_decides_tangled :
    ∃ scan ls visits, Scan.tangled.Legible ∧ Scan.plan Scan.tangled "/" = .ok scan ∧
      (scan.ignoring []).run Scan.tangled = .ok ls ∧
      (scan.ignoring []).visits Scan.tangled = .ok visits ∧
      Matches Scan.tangled [] visits ls (.publicIn "a/c" ["f"]) ∧
      (Descriptor.publicIn "a/c" ["f"]).Sound := by
  have hplan : Scan.plan Scan.tangled "/" = .ok ⟨"/", ∅⟩ := by cbv
  have hpassed : run Scan.tangled ⟨some "/", true, []⟩ (.publicIn "a/c" ["f"]) =
      .ok ⟨.publicIn "a/c" ["f"], true⟩ := by cbv
  obtain ⟨-, haudit⟩ :=
    run_decides Scan.legible_tangled ⟨some "/", true, []⟩ (.publicIn "a/c" ["f"])
  obtain ⟨visits, hvisits, _, -, hiff, -⟩ :=
    ((haudit "/" rfl).2 _ hplan).2 _ Scan.run_tangled
  exact ⟨_, _, visits, Scan.legible_tangled, hplan, Scan.run_tangled, hvisits, hiff.mp hpassed⟩

end Audit

end LicenseAudit
