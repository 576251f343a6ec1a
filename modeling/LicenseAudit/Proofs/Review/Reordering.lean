import LicenseAudit.Proofs.Descriptor.Inventory
import LicenseAudit.Proofs.Descriptor.Traversal
import LicenseAudit.Proofs.Review.Findings

/-!
# The order of declarations

What a review finds depends on three things only: which locations are declared, which are declared
more than once, and which lack a source (`findings_congr`). The tallies that it is made from depend
on the order in which they are taken, but **none of these three does**: each says of the supplies
that there is one, or how many there are. So supplies in another order, at any level, give the same
report (`run_reordered`), though the descriptors differ where the order is kept.
-/

set_option autoImplicit false

namespace LicenseAudit

/-! ## Supplies in another order -/

/-- The same resources are held by the same organisation. -/
structure SuppliedHolding.Reordered (x y : SuppliedHolding) : Prop where
  organisation : x.organisation = y.organisation
  resources : x.resources.Perm y.resources

/-- The same license is granted to the same holdings. -/
structure SuppliedGrant.Reordered (x y : SuppliedGrant) : Prop where
  license : x.license = y.license
  copyrightNotice : x.copyrightNotice = y.copyrightNotice
  parameters : x.parameters = y.parameters
  holdings : ReorderedBy SuppliedHolding.Reordered x.holdings y.holdings

/-- The same directory has the same content. -/
structure SuppliedSection.Reordered (x y : SuppliedSection) : Prop where
  name : x.name = y.name
  grants : ReorderedBy SuppliedGrant.Reordered x.grants y.grants
  publicDomain : ReorderedBy SuppliedHolding.Reordered x.publicDomain y.publicDomain

theorem SuppliedHolding.Reordered.refl (x : SuppliedHolding) : x.Reordered x := ⟨rfl, .refl _⟩

theorem SuppliedGrant.Reordered.refl (x : SuppliedGrant) : x.Reordered x :=
  ⟨rfl, rfl, rfl, .refl SuppliedHolding.Reordered.refl _⟩

theorem SuppliedSection.Reordered.refl (x : SuppliedSection) : x.Reordered x :=
  ⟨rfl, .refl SuppliedGrant.Reordered.refl _, .refl SuppliedHolding.Reordered.refl _⟩

theorem SuppliedGrant.Reordered.resources_perm {x y : SuppliedGrant} (h : x.Reordered y) :
    x.resources.Perm y.resources :=
  h.holdings.flatMap_perm fun _ _ hh => hh.resources

namespace SuppliedSection.Reordered

variable {x y : SuppliedSection}

theorem names_perm (h : x.Reordered y) : x.names.Perm y.names := by
  have hpublic := h.publicDomain.flatMap_perm fun _ _ hh => hh.resources
  have hgrants := h.grants.flatMap_perm fun _ _ hg => hg.resources_perm
  exact (hpublic.append hgrants).map Resource.name

theorem links_iff (h : x.Reordered y) {hasSource : Bool} {name : String} :
    x.Links hasSource name ↔ y.Links hasSource name := by
  apply h.grants.exists_iff
  intro g g' hg
  rw [hg.license]
  simp only [hg.resources_perm.mem_iff]

/-- Where a property is not about order, it does not matter in which order one looks for it. -/
theorem exists_iff {P : SuppliedSection → Prop} {directory : String} {xs ys : List SuppliedSection}
    (h : ReorderedBy SuppliedSection.Reordered xs ys)
    (hP : ∀ x y, x.Reordered y → (P x ↔ P y)) :
    (∃ x ∈ xs, x.name = directory ∧ P x) ↔ ∃ y ∈ ys, y.name = directory ∧ P y := by
  apply h.exists_iff
  intro x y hxy
  rw [hxy.name, hP x y hxy]

end SuppliedSection.Reordered

/-! ## Reviews -/

namespace Review

/-- Descriptors of which these three things are the same are reviewed alike. -/
theorem findings_congr {d d' : Descriptor} (hdeclares : ∀ l, d.Declares l ↔ d'.Declares l)
    (hrepeats : ∀ l, d.Repeats l ↔ d'.Repeats l)
    (hlinks : ∀ l, d.Links false l ↔ d'.Links false l) (listings : Option Listings) :
    findings listings d = findings listings d' := by
  apply Report.ext_bucket?
  intro k
  rw [full_findings listings d' k]
  apply bucket?_findings_eq
  intro l
  cases k with
  | duplicate => rw [mem_duplicate_findings, mem_duplicate_findings, hrepeats]
  | missingSource => rw [mem_missingSource_findings, mem_missingSource_findings, hlinks]
  | missingLicense =>
    cases listings with
    | none => simp only [mem_findings_none, hrepeats, hlinks]
    | some ls => rw [mem_missingLicense_findings, mem_missingLicense_findings, hdeclares]
  | extraLicense =>
    cases listings with
    | none => simp only [mem_findings_none, hrepeats, hlinks]
    | some ls => rw [mem_extraLicense_findings, mem_extraLicense_findings, hdeclares]

end Review

theorem Descriptor.MadeOf.findings_eq {d d' : Descriptor} {xs ys : List SuppliedSection}
    (hd : d.MadeOf xs) (hd' : d'.MadeOf ys) (h : ReorderedBy SuppliedSection.Reordered xs ys)
    (listings : Option Listings) :
    Review.findings listings d = Review.findings listings d' := by
  apply Review.findings_congr
  · intro l
    rw [hd.declares_iff, hd'.declares_iff]
    exact SuppliedSection.Reordered.exists_iff h fun _ _ hxy => hxy.names_perm.mem_iff
  · intro l
    rw [hd.repeats_iff, hd'.repeats_iff]
    exact SuppliedSection.Reordered.exists_iff h fun _ _ hxy => by rw [hxy.names_perm.count_eq]
  · intro l
    rw [hd.links_iff, hd'.links_iff]
    exact SuppliedSection.Reordered.exists_iff h fun _ _ hxy => hxy.links_iff

namespace Drafting

/-- Two drafts of the same supplies, in any order at any level, are reviewed alike, with listings or
without and whatever was reviewed before. -/
theorem run_reordered {cs cs' : List Call} {license license' : String}
    {organisation organisation' : Option String} {d d' : Descriptor}
    (h : (draftOf cs).finish license organisation = .ok d)
    (h' : (draftOf cs').finish license' organisation' = .ok d') {xs ys : List SuppliedSection}
    (hxs : List.Forall₂ (fun x s => x.make = .ok s) xs (added ∅ cs))
    (hys : List.Forall₂ (fun y s => y.make = .ok s) ys (added ∅ cs'))
    (hreordered : ReorderedBy SuppliedSection.Reordered xs ys) (listings : Option Listings)
    (before before' : Report) :
    (⟨listings, before⟩ : Review).run d = (⟨listings, before'⟩ : Review).run d' := by
  have hfindings := (made_of_added h hxs).findings_eq (made_of_added h' hys) hreordered listings
  rw [Review.run, Review.run, hfindings]

/-- A grant that needs sources, of two resources that tie. -/
def sourced (r r' : Resource) (htie : (compare r.name r'.name).isLE = true) : Grant where
  license := ⟨"S", "Sourced", "", true, "", ∅⟩
  copyrightNotice := none
  parameters := ∅
  holdings := ⟨[⟨⟨"O", "Offcuts", ""⟩, ⟨[r, r'], List.pairwise_pair.mpr htie⟩⟩],
    List.pairwise_singleton _ _⟩
  accepted := ⟨rfl, rfl⟩

def linked : Resource := ⟨"x", some "source", none⟩

def unlinked : Resource := ⟨"x", none, none⟩

/-- The shelf's content, and below or above it what needs sources. -/
def shelfBelow : Section :=
  { shelf "a" with grants := (shelf "a").grants ++ [sourced linked unlinked rfl] }

def shelfAbove : Section :=
  { shelf "a" with grants := sourced unlinked linked rfl :: (shelf "a").grants }

def refiling (ss : List Section) : List Call :=
  [.addLicense ⟨"L", "License", "", false, "", ∅⟩, .addLicense ⟨"S", "Sourced", "", true, "", ∅⟩,
    .addOrganisation ⟨"O", "Offcuts", ""⟩] ++ ss.map .addSection

theorem supply_shelfBelow_reordered : shelfBelow.supply.Reordered shelfAbove.supply := by
  have hsourced : (sourced linked unlinked rfl).supply.Reordered
      (sourced unlinked linked rfl).supply :=
    ⟨rfl, rfl, rfl, _, .refl _, .cons ⟨rfl, .swap _ _ _⟩ .nil⟩
  refine ⟨rfl, ?_, .refl SuppliedHolding.Reordered.refl _⟩
  exact ⟨_, .swap _ _ _, .cons hsourced (.cons (.refl _) .nil)⟩

/-- Sections, grants and resources that tie are all filed the other way round. -/
theorem run_reordered_refiling :
    ∃ d d' : Descriptor, (draftOf (refiling [shelfBelow, shelf "b"])).finish "L" none = .ok d ∧
      (draftOf (refiling [shelf "b", shelfAbove])).finish "S" none = .ok d' ∧
      d.sections ≠ d'.sections ∧
      Review.ofDescriptor.run d = Review.ofDescriptor.run d' ∧
      ⟨"a", "x"⟩ ∈ (Review.ofDescriptor.run d).report.get .missingSource := by
  have hregistered :
      (draftOf (refiling [shelfBelow, shelf "b"])).licenses.contains "L" = true := rfl
  have hregistered' : (draftOf (refiling [shelf "b", shelfAbove])).licenses.contains "S" = true :=
    rfl
  obtain ⟨d, hfinish⟩ := Draft.exists_finish_none hregistered
  obtain ⟨d', hfinish'⟩ := Draft.exists_finish_none hregistered'
  have hsections : d.sections.toList = [shelfBelow, shelf "b"] := by
    obtain ⟨_, _, -, -, rfl⟩ := Draft.finish_eq_ok_iff.mp hfinish
    rfl
  have hsections' : d'.sections.toList = [shelfAbove, shelf "b"] := by
    obtain ⟨_, _, -, -, rfl⟩ := Draft.finish_eq_ok_iff.mp hfinish'
    rfl
  refine ⟨d, d', hfinish, hfinish', ?_, ?_, ?_⟩
  · intro heq
    rw [heq, hsections'] at hsections
    exact absurd hsections (by decide)
  · have hxs : List.Forall₂ (fun (x : SuppliedSection) s => x.make = .ok s)
        [shelfBelow.supply, (shelf "b").supply]
        (added ∅ (refiling [shelfBelow, shelf "b"])) :=
      .cons (Section.make_supply _) (.cons (Section.make_supply _) .nil)
    have hys : List.Forall₂ (fun (x : SuppliedSection) s => x.make = .ok s)
        [(shelf "b").supply, shelfAbove.supply]
        (added ∅ (refiling [shelf "b", shelfAbove])) :=
      .cons (Section.make_supply _) (.cons (Section.make_supply _) .nil)
    have hreordered : ReorderedBy SuppliedSection.Reordered
        [shelfBelow.supply, (shelf "b").supply] [(shelf "b").supply, shelfAbove.supply] :=
      ⟨_, .swap _ _ _, .cons (.refl _) (.cons supply_shelfBelow_reordered .nil)⟩
    exact run_reordered hfinish hfinish' hxs hys hreordered none .fresh .fresh
  · have hmem : shelfBelow ∈ d.sections := by
      rw [SortedBy.mem_iff_mem_toList, hsections]
      exact List.mem_cons_self
    apply Review.mem_missingSource_findings.mpr
    refine ⟨shelfBelow, hmem, rfl, sourced linked unlinked rfl, by simp [shelfBelow], rfl, unlinked,
      ?_, rfl, rfl⟩
    simp [Grant.resources, sourced]

end Drafting

end LicenseAudit
