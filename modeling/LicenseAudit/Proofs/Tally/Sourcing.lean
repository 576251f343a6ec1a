import LicenseAudit.Proofs.Descriptor.Drafting
import LicenseAudit.Proofs.Tally.DeclaredNames
import LicenseAudit.Proofs.Tally.SourceLinks

/-!
# Resources with a source, and without

One walk over a descriptor sorts the resources that need a source into those that have one and those
that have none. A resource needs one exactly if the license of its own grant says so. What the tally
was in before, another grant's license or another directory, has no say in it: a section adds the
same links without its public domain and without the grants that need no source
(`SourceLinks.links_walk_sourced`).

A location can be in both sets, since a name may be declared twice. Then the other tally has it as a
duplicate (`Section.two_le_count_of_links`).
-/

set_option autoImplicit false

namespace LicenseAudit

theorem Resource.hasSource_eq_false_iff {r : Resource} :
    r.hasSource = false ↔ r.source = none ∨ r.source = some "" := by
  unfold hasSource
  cases r.source with
  | none => simp
  | some source => simp

/-- What is left of a section without its public domain and without the grants that need no source.
-/
def Section.sourced (s : Section) : Section where
  name := s.name
  grants := s.grants.filter fun g => g.license.sourceRequired
  publicDomain := default

variable {s : Section} {name : String}

theorem Section.links_sourced {b : Bool} : s.sourced.Links b name ↔ s.Links b name := by
  simp only [Links, sourced, List.mem_filter]
  constructor
  · rintro ⟨g, ⟨hg, hrequired⟩, -, hr⟩
    exact ⟨g, hg, hrequired, hr⟩
  · rintro ⟨g, hg, hrequired, hr⟩
    exact ⟨g, ⟨hg, hrequired⟩, hrequired, hr⟩

theorem Section.mem_resources_of_grant {g : Grant} {r : Resource} (hg : g ∈ s.grants)
    (hr : r ∈ g.resources) : r ∈ s.resources :=
  List.mem_append_right _ (List.mem_flatMap.mpr ⟨g, hg, hr⟩)

/-- A name that is declared with a source and without one is declared twice. -/
theorem Section.two_le_count_of_links (hwith : s.Links true name) (hwithout : s.Links false name) :
    2 ≤ s.names.count name := by
  obtain ⟨g, hg, -, r, hr, rfl, hsource⟩ := hwith
  obtain ⟨g', hg', -, r', hr', hname, hnone⟩ := hwithout
  have hne : r' ≠ r := by
    rintro rfl
    simp [hsource] at hnone
  -- take the one declaration out; the other is still there
  have hperm := (List.perm_cons_erase (mem_resources_of_grant hg hr)).map Resource.name
  have hleft : r.name ∈ (s.resources.erase r).map Resource.name := by
    rw [← hname]
    exact List.mem_map_of_mem ((List.mem_erase_of_ne hne).mpr (mem_resources_of_grant hg' hr'))
  rw [names, hperm.count_eq, List.map_cons, List.count_cons_self]
  exact Nat.succ_le_succ (List.one_le_count_iff.mpr hleft)

namespace SourceLinks

/-- The public domain and the grants that need no source add nothing, whatever was met before. -/
theorem links_walk_sourced {t : SourceLinks} (hm : t.misplaced = none) (s : Section) (b : Bool) :
    (s.walk walker t).links b = (s.sourced.walk walker t).links b := by
  apply SortedBy.ext_mem
  intro l
  rw [(walk_section s hm).2 b l, (walk_section s.sourced hm).2 b l, Section.links_sourced]
  rfl

end SourceLinks

namespace Descriptor

theorem repeats_of_links {d : Descriptor} {l : Location} (hwith : d.Links true l)
    (hwithout : d.Links false l) : d.Repeats l := by
  obtain ⟨s, hs, hname, hlinks⟩ := hwith
  obtain ⟨s', hs', hname', hlinks'⟩ := hwithout
  obtain rfl : s = s' := SortedBy.eq_of_key_eq hs hs' (hname.trans hname'.symm)
  exact ⟨s, hs, hname, Section.two_le_count_of_links hlinks hlinks'⟩

/-- A walk finds without a source, and with one, exactly the resources of grants whose own license
requires one. Nothing else of a section adds to them, whatever was met before it, and a location
that is found both with a source and without is a duplicate. -/
theorem walk_finds_sources (d : Descriptor) :
    let t := d.walk SourceLinks.walker .start
    t.misuse? = none ∧
      (∀ l, l ∈ t.missing ↔ ∃ s ∈ d.sections, s.name = l.directory ∧
        ∃ g ∈ s.grants, g.license.sourceRequired = true ∧
          ∃ r ∈ g.resources, r.name = l.resource ∧ (r.source = none ∨ r.source = some "")) ∧
      (∀ l, l ∈ t.present ↔ ∃ s ∈ d.sections, s.name = l.directory ∧
        ∃ g ∈ s.grants, g.license.sourceRequired = true ∧
          ∃ r ∈ g.resources, r.name = l.resource ∧ ∃ source, r.source = some source ∧ source ≠ "") ∧
      (∀ before : SourceLinks, before.misplaced = none → ∀ s : Section,
        (s.walk SourceLinks.walker before).missing =
          (s.sourced.walk SourceLinks.walker before).missing ∧
        (s.walk SourceLinks.walker before).present =
          (s.sourced.walk SourceLinks.walker before).present) ∧
      ∀ l ∈ t.missing, l ∈ t.present → l ∈ (d.walk DeclaredNames.walker .start).duplicates := by
  intro t
  have hholds : SourceLinks.Holds d.sections.toList t := SourceLinks.holds_walk d
  have hmissing : ∀ l, l ∈ t.missing ↔ d.Links false l := hholds.links false
  have hpresent : ∀ l, l ∈ t.present ↔ d.Links true l := hholds.links true
  refine ⟨?_, fun l => ?_, fun l => ?_, fun before hm s => ?_, fun l hwithout hwith => ?_⟩
  · rw [SourceLinks.misuse?, hholds.misplaced]
    rfl
  · simp only [hmissing, Links, Section.Links, Resource.hasSource_eq_false_iff]
  · simp only [hpresent, Links, Section.Links, Resource.hasSource_iff]
  · exact ⟨SourceLinks.links_walk_sourced hm s false, SourceLinks.links_walk_sourced hm s true⟩
  · have hrepeats : d.Repeats l :=
      repeats_of_links ((hpresent l).mp hwith) ((hmissing l).mp hwithout)
    exact ((DeclaredNames.holds_walk d).duplicates l).mpr hrepeats

/-- A resource of this name, with a source or without, granted under a license that requires it or
not. -/
def grantOf (required : Bool) (name : String) (source : Option String) : Grant where
  license := ⟨if required then "L" else "M", "License", "", required, "", ∅⟩
  copyrightNotice := none
  parameters := ∅
  holdings := ⟨[⟨⟨"O", "Organisation", ""⟩, ⟨[⟨name, none, source⟩], List.pairwise_singleton _ _⟩⟩],
    List.pairwise_singleton _ _⟩
  accepted := ⟨rfl, rfl⟩

/-- A directory that grants `x` twice where a source is required, once with one, and `y` once where
none is. -/
def mixed : Section :=
  ⟨"a", [grantOf true "x" (some ""), grantOf false "y" none, grantOf true "x" (some "link")],
    default⟩

def mixing : List Drafting.Call :=
  [.addLicense (grantOf true "x" none).license, .addLicense (grantOf false "x" none).license,
    .addOrganisation ⟨"O", "Organisation", ""⟩, .addSection mixed]

/-- What is granted both with a source and without is a duplicate. After a grant that requires a
source, one that does not adds nothing. -/
theorem walk_finds_sources_mixed :
    ∃ d : Descriptor, (Drafting.draftOf mixing).finish "L" none = .ok d ∧
      ⟨"a", "x"⟩ ∈ (d.walk SourceLinks.walker .start).missing ∧
      ⟨"a", "x"⟩ ∈ (d.walk SourceLinks.walker .start).present ∧
      ⟨"a", "x"⟩ ∈ (d.walk DeclaredNames.walker .start).duplicates ∧
      ⟨"a", "y"⟩ ∉ (d.walk SourceLinks.walker .start).missing ∧
      (mixed.walk SourceLinks.walker .start).missing =
        (mixed.sourced.walk SourceLinks.walker .start).missing := by
  have hregistered : (Drafting.draftOf mixing).licenses.contains "L" = true := rfl
  obtain ⟨d, hfinish⟩ := Draft.exists_finish_none hregistered
  have hsections : d.sections.toList = [mixed] := by
    obtain ⟨_, _, -, -, rfl⟩ := Draft.finish_eq_ok_iff.mp hfinish
    rfl
  have hmem : ∀ s, s ∈ d.sections ↔ s = mixed := by
    intro s
    rw [SortedBy.mem_iff_mem_toList, hsections, List.mem_singleton]
  obtain ⟨-, hmissing, hpresent, hsourced, hduplicates⟩ := walk_finds_sources d
  have hwithout : ⟨"a", "x"⟩ ∈ (d.walk SourceLinks.walker .start).missing :=
    (hmissing _).mpr ⟨mixed, (hmem _).mpr rfl, rfl, grantOf true "x" (some ""), by simp [mixed],
      rfl, _, List.mem_singleton_self _, rfl, .inr rfl⟩
  have hwith : ⟨"a", "x"⟩ ∈ (d.walk SourceLinks.walker .start).present :=
    (hpresent _).mpr ⟨mixed, (hmem _).mpr rfl, rfl, grantOf true "x" (some "link"), by simp [mixed],
      rfl, _, List.mem_singleton_self _, rfl, "link", rfl, by simp⟩
  refine ⟨d, hfinish, hwithout, hwith, hduplicates _ hwithout hwith, ?_, (hsourced .start rfl _).1⟩
  intro hy
  obtain ⟨s, hs, -, g, hg, hrequired, r, hr, hname, -⟩ := (hmissing _).mp hy
  rw [(hmem s).mp hs] at hg
  -- of the three grants only those of `x` require a source
  rcases List.mem_cons.mp hg with rfl | hg
  · rw [List.mem_singleton.mp hr] at hname
    simp at hname
  · rcases List.mem_cons.mp hg with rfl | hg
    · cases hrequired
    · rw [List.mem_singleton.mp hg] at hr
      rw [List.mem_singleton.mp hr] at hname
      simp at hname

end Descriptor

end LicenseAudit
