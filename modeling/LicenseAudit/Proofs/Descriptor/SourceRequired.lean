import LicenseAudit.Proofs.Descriptor.Drafting
import LicenseAudit.Proofs.Review.Findings
import LicenseAudit.Proofs.Tally.Parties

/-!
# Whether a source is required

The question is answered from the licenses that the tally of parties holds, and it holds the first
one of each id. So a source is required exactly if the first grant of some license id requires one
(`isSourceRequired_iff`). The review of the sources goes by each grant's own license instead. A
grant that comes after another of the same license id and holds another license is therefore
reviewed but not asked; where grants hold what is registered there is no such grant.
-/

set_option autoImplicit false

namespace LicenseAudit

namespace Descriptor

variable {d : Descriptor}

theorem isSourceRequired_iff :
    d.isSourceRequired = true ↔ ∃ before g after, d.grants = before ++ g :: after ∧
      g.license.sourceRequired = true ∧ ∀ e ∈ before, e.license.id ≠ g.license.id := by
  have hlicenses :
      (d.walk Parties.walker .start).licenses = .ofList (d.grants.map Grant.license) := by
    rw [Parties.walk_descriptor]
    rfl
  rw [isSourceRequired, hlicenses, List.any_eq_true]
  constructor
  · rintro ⟨l, hl, hrequired⟩
    obtain ⟨before, after, heq, hfirst⟩ := SortedBy.mem_ofList_iff_first.mp hl
    obtain ⟨gs, gs', hgrants, rfl, hrest⟩ := List.map_eq_append_iff.mp heq
    obtain ⟨g, gs', rfl, rfl, -⟩ := List.map_eq_cons_iff.mp hrest
    refine ⟨gs, g, gs', hgrants, hrequired, fun e he => ?_⟩
    exact hfirst e.license (List.mem_map_of_mem he)
  · rintro ⟨before, g, after, heq, hrequired, hfirst⟩
    refine ⟨g.license, SortedBy.mem_ofList_iff_first.mpr ?_, hrequired⟩
    refine ⟨before.map Grant.license, after.map Grant.license, ?_, ?_⟩
    · rw [heq, List.map_append, List.map_cons]
    · intro l hl
      obtain ⟨e, he, rfl⟩ := List.mem_map.mp hl
      exact hfirst e he

/-- Before this grant comes one whose license has the same id and requires no source. -/
def Hides (d : Descriptor) (g : Grant) : Prop :=
  ∃ before after, d.grants = before ++ g :: after ∧
    ∃ e ∈ before, e.license.id = g.license.id ∧ e.license.sourceRequired = false

theorem isSourceRequired_or_hides {g : Grant} (hg : g ∈ d.grants)
    (hrequired : g.license.sourceRequired = true) : d.isSourceRequired = true ∨ d.Hides g := by
  obtain ⟨before, after, heq⟩ := List.append_of_mem hg
  cases hfind : before.find? fun e => e.license.id = g.license.id with
  | none =>
    have hfirst : ∀ e ∈ before, e.license.id ≠ g.license.id := by simpa using hfind
    exact .inl (isSourceRequired_iff.mpr ⟨before, g, after, heq, hrequired, hfirst⟩)
  | some e =>
    -- `e` is the first grant of this license id, so the answer goes by its license
    obtain ⟨hid, earlier, later, rfl, hfirst⟩ := List.find?_eq_some_iff_append.mp hfind
    have hid : e.license.id = g.license.id := by simpa using hid
    cases he : e.license.sourceRequired with
    | false => exact .inr ⟨_, after, heq, e, by simp, hid, he⟩
    | true =>
      refine .inl (isSourceRequired_iff.mpr ⟨earlier, e, later ++ g :: after, ?_, he, ?_⟩)
      · rw [heq, List.append_assoc, List.cons_append]
      · simpa [hid] using hfirst

theorem not_hides_of_registered
    (h : ∀ s ∈ d.sections, ∀ g ∈ s.grants, d.license g.license.id = .ok g.license) {g : Grant}
    (hrequired : g.license.sourceRequired = true) : ¬d.Hides g := by
  rintro ⟨before, after, heq, e, he, hid, hnot⟩
  have hregistered : ∀ g' ∈ d.grants, d.license g'.license.id = .ok g'.license := by
    intro g' hg'
    obtain ⟨s, hs, hg'⟩ := mem_grants.mp hg'
    exact h s hs g' hg'
  have hlicense := hregistered e (by simp [heq, he])
  rw [hid, hregistered g (by simp [heq]), Except.ok.injEq] at hlicense
  rw [← hlicense, hrequired] at hnot
  cases hnot

/-- Whether a source is required is told by the first grant of each license id. A grant that
requires one is overlooked only if another of the same license id, which requires none, comes before
it; and none is where grants hold the licenses that are registered. The same goes for grants in
which a review misses a source. -/
theorem isSourceRequired_decides (d : Descriptor) :
    (d.isSourceRequired = true ↔ ∃ before g after, d.grants = before ++ g :: after ∧
      g.license.sourceRequired = true ∧ ∀ e ∈ before, e.license.id ≠ g.license.id) ∧
    (∀ s ∈ d.sections, ∀ g ∈ s.grants, g.license.sourceRequired = true →
      d.isSourceRequired = true ∨ d.Hides g) ∧
    (∀ (r : Review) (l : Location), l ∈ (r.run d).report.get .missingSource →
      ∃ s ∈ d.sections, s.name = l.directory ∧ ∃ g ∈ s.grants,
        g.license.sourceRequired = true ∧ (d.isSourceRequired = true ∨ d.Hides g)) ∧
    ((∀ s ∈ d.sections, ∀ g ∈ s.grants, d.license g.license.id = .ok g.license) →
      (d.isSourceRequired = true ↔
        ∃ s ∈ d.sections, ∃ g ∈ s.grants, g.license.sourceRequired = true) ∧
      ∀ (r : Review) (l : Location), l ∈ (r.run d).report.get .missingSource →
        d.isSourceRequired = true) := by
  have hor : ∀ s ∈ d.sections, ∀ g ∈ s.grants, g.license.sourceRequired = true →
      d.isSourceRequired = true ∨ d.Hides g := fun s hs g hg hrequired =>
    isSourceRequired_or_hides (mem_grants.mpr ⟨s, hs, hg⟩) hrequired
  have hmissing : ∀ (r : Review) (l : Location), l ∈ (r.run d).report.get .missingSource →
      ∃ s ∈ d.sections, s.name = l.directory ∧ ∃ g ∈ s.grants,
        g.license.sourceRequired = true ∧ (d.isSourceRequired = true ∨ d.Hides g) := by
    intro r l hl
    obtain ⟨s, hs, hname, g, hg, hrequired, -⟩ := Review.mem_missingSource_findings.mp hl
    exact ⟨s, hs, hname, g, hg, hrequired, hor s hs g hg hrequired⟩
  refine ⟨isSourceRequired_iff, hor, hmissing, fun hregistered => ⟨⟨?_, ?_⟩, ?_⟩⟩
  · intro hd
    obtain ⟨before, g, after, heq, hrequired, -⟩ := isSourceRequired_iff.mp hd
    obtain ⟨s, hs, hg⟩ := mem_grants.mp (show g ∈ d.grants by simp [heq])
    exact ⟨s, hs, g, hg, hrequired⟩
  · rintro ⟨s, hs, g, hg, hrequired⟩
    exact (hor s hs g hg hrequired).resolve_right (not_hides_of_registered hregistered hrequired)
  · intro r l hl
    obtain ⟨s, hs, -, g, hg, hrequired, hd⟩ := hmissing r l hl
    exact hd.resolve_right (not_hides_of_registered hregistered hrequired)

/-! ## Grants of two licenses of one id -/

/-- A license that requires a source, or one of the same id that does not. -/
def sided (required : Bool) : License := ⟨"L", "License", "", required, "", ∅⟩

/-- A resource without a source, granted under one of the two. -/
def sidedGrant (required : Bool) : Grant where
  license := sided required
  copyrightNotice := none
  parameters := ∅
  holdings := ⟨[⟨⟨"O", "Organisation", ""⟩, ⟨[⟨"r", none, none⟩], List.pairwise_singleton _ _⟩⟩],
    List.pairwise_singleton _ _⟩
  accepted := ⟨rfl, rfl⟩

def sidedSection (grants : List Bool) : Section := ⟨"a", grants.map sidedGrant, default⟩

/-- The calls that register one of the two licenses and grant some of them. -/
def sidedCalls (registered : Bool) (grants : List Bool) : List Drafting.Call :=
  [.addLicense (sided registered), .addOrganisation ⟨"O", "Organisation", ""⟩,
    .addSection (sidedSection grants)]

theorem exists_sided {registered : Bool} {grants : List Bool}
    (hlicense : (Drafting.draftOf (sidedCalls registered grants)).licenses.toList =
      [sided registered])
    (hsection : (Drafting.draftOf (sidedCalls registered grants)).sections.toList =
      [sidedSection grants]) :
    ∃ d : Descriptor, (Drafting.draftOf (sidedCalls registered grants)).finish "L" none = .ok d ∧
      d.license "L" = .ok (sided registered) ∧ d.sections.toList = [sidedSection grants] ∧
      ∀ s, s ∈ d.sections ↔ s = sidedSection grants := by
  have hfind : (Drafting.draftOf (sidedCalls registered grants)).licenses.find? "L" =
      some (sided registered) := by
    rw [SortedBy.find?_eq_some_iff, SortedBy.mem_iff_mem_toList, hlicense]
    exact ⟨List.mem_singleton_self _, rfl⟩
  obtain ⟨d, hd⟩ := Draft.exists_finish_none (Option.isSome_of_eq_some hfind)
  obtain ⟨_, _, -, -, rfl⟩ := Draft.finish_eq_ok_iff.mp hd
  refine ⟨_, hd, Licenses.lookup_eq_ok.mpr hfind, hsection, fun s => ?_⟩
  rw [SortedBy.mem_iff_mem_toList, hsection, List.mem_singleton]

/-- Where the one grant holds the registered license, the answer is that a source is required; and
where one that requires none comes before it, the grant is hidden or the answer is the same. -/
theorem isSourceRequired_decides_sided :
    (∃ d : Descriptor, (Drafting.draftOf (sidedCalls true [true])).finish "L" none = .ok d ∧
      ⟨"a", "r"⟩ ∈ (Review.ofDescriptor.run d).report.get .missingSource ∧
      d.isSourceRequired = true) ∧
    ∃ d : Descriptor, (Drafting.draftOf (sidedCalls false [false, true])).finish "L" none = .ok d ∧
      sidedGrant true ∈ d.grants ∧ (d.isSourceRequired = true ∨ d.Hides (sidedGrant true)) := by
  constructor
  · obtain ⟨d, hd, hlicense, -, hmem⟩ := @exists_sided true [true] rfl rfl
    have hmissing : ⟨"a", "r"⟩ ∈ (Review.ofDescriptor.run d).report.get .missingSource :=
      Review.mem_missingSource_findings.mpr ⟨_, (hmem _).mpr rfl, rfl, sidedGrant true,
        List.mem_singleton_self _, rfl, _, List.mem_singleton_self _, rfl, rfl⟩
    obtain ⟨-, -, -, hregistered⟩ := isSourceRequired_decides d
    have hholds : ∀ s ∈ d.sections, ∀ g ∈ s.grants, d.license g.license.id = .ok g.license := by
      intro s hs g hg
      rw [(hmem s).mp hs] at hg
      rw [List.mem_singleton.mp hg]
      exact hlicense
    exact ⟨d, hd, hmissing, (hregistered hholds).2 _ _ hmissing⟩
  · obtain ⟨d, hd, -, -, hmem⟩ := @exists_sided false [false, true] rfl rfl
    have hs : sidedSection [false, true] ∈ d.sections := (hmem _).mpr rfl
    have hg : sidedGrant true ∈ (sidedSection [false, true]).grants :=
      List.mem_cons_of_mem _ (List.mem_singleton_self _)
    obtain ⟨-, hor, -⟩ := isSourceRequired_decides d
    exact ⟨d, hd, mem_grants.mpr ⟨_, hs, hg⟩, hor _ hs _ hg rfl⟩

/-- A grant requires a source and the review misses it, but the answer is that none is required. -/
theorem sided_overlooked :
    ∃ d : Descriptor, (Drafting.draftOf (sidedCalls false [false, true])).finish "L" none = .ok d ∧
      (∃ s ∈ d.sections, ∃ g ∈ s.grants, g.license.sourceRequired = true) ∧
      ⟨"a", "r"⟩ ∈ (Review.ofDescriptor.run d).report.get .missingSource ∧
      d.isSourceRequired = false := by
  obtain ⟨d, hd, -, hsections, hmem⟩ := @exists_sided false [false, true] rfl rfl
  have hs : sidedSection [false, true] ∈ d.sections := (hmem _).mpr rfl
  have hg : sidedGrant true ∈ (sidedSection [false, true]).grants :=
    List.mem_cons_of_mem _ (List.mem_singleton_self _)
  refine ⟨d, hd, ⟨_, hs, _, hg, rfl⟩, Review.mem_missingSource_findings.mpr ⟨_, hs, rfl, _, hg, rfl,
    _, List.mem_singleton_self _, rfl, rfl⟩, ?_⟩
  rw [isSourceRequired, walk, hsections]
  rfl

end Descriptor

end LicenseAudit
