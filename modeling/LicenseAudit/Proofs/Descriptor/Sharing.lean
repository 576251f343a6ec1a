import LicenseAudit.Proofs.Descriptor.Contents

/-!
# Which definitions groups hold

A group holds its license or its organisation itself, next to the one that is registered under the
same id. A section `Shares` what is registered if the two are the same in every group. Since a draft
is asked about ids only, a section that shares nothing is taken as well; but what is registered
never changes, so the sections of a descriptor share exactly if each of them did when it was taken
(`finish_shares`).
-/

set_option autoImplicit false

namespace LicenseAudit

/-- Every group of the section holds what is found under its id. -/
structure Section.Shares (license : String → Except Fault License)
    (organisation : String → Except Fault Organisation) (s : Section) : Prop where
  license : ∀ g ∈ s.grants, license g.license.id = .ok g.license
  holder : ∀ g ∈ s.grants, ∀ h ∈ g.holdings, organisation h.organisation.id = .ok h.organisation
  publicDomain : ∀ h ∈ s.publicDomain, organisation h.organisation.id = .ok h.organisation

theorem Draft.KeptIn.lookup {d d' : Draft} (h : d.KeptIn d') :
    (∀ id l, d.license id = .ok l → d'.license id = .ok l) ∧
      ∀ id o, d.organisation id = .ok o → d'.organisation id = .ok o := by
  constructor
  · intro id l hl
    exact Licenses.lookup_eq_ok.mpr (h.license id l (Licenses.lookup_eq_ok.mp hl))
  · intro id o ho
    exact Organisations.lookup_eq_ok.mpr (h.organisation id o (Organisations.lookup_eq_ok.mp ho))

theorem Section.Shares.keptIn {d d' : Draft} {s : Section} (hs : s.Shares d.license d.organisation)
    (h : d.KeptIn d') : s.Shares d'.license d'.organisation where
  license g hg := h.lookup.1 _ _ (hs.license g hg)
  holder g hg x hx := h.lookup.2 _ _ (hs.holder g hg x hx)
  publicDomain x hx := h.lookup.2 _ _ (hs.publicDomain x hx)

/-- What is registered in a draft is found there, and is still the same later. -/
theorem Section.Shares.of_keptIn {d d' : Draft} {s : Section}
    (hs : s.Shares d'.license d'.organisation) (h : d.KeptIn d')
    (hregistered : ∀ r ∈ s.references, d.registers r = true) :
    s.Shares d.license d.organisation := by
  have hlicense : ∀ l : License, d'.license l.id = .ok l → d.registers (.license l.id) = true →
      d.license l.id = .ok l := by
    intro l hl hr
    obtain ⟨l', hl'⟩ := Draft.exists_license_iff.mpr hr
    have hsame := h.lookup.1 _ _ hl'
    rw [hl, Except.ok.injEq] at hsame
    rw [hl', hsame]
  have horganisation : ∀ x : Holding, d'.organisation x.organisation.id = .ok x.organisation →
      d.registers x.reference = true → d.organisation x.organisation.id = .ok x.organisation := by
    intro x hx hr
    obtain ⟨o, ho⟩ := Draft.exists_organisation_iff.mpr hr
    have hsame := h.lookup.2 _ _ ho
    rw [hx, Except.ok.injEq] at hsame
    rw [ho, hsame]
  constructor
  · intro g hg
    apply hlicense _ (hs.license g hg)
    exact hregistered _ (mem_references.mpr (.inl ⟨g, hg, .inl rfl⟩))
  · intro g hg x hx
    apply horganisation x (hs.holder g hg x hx)
    exact hregistered _ (mem_references.mpr (.inl ⟨g, hg, .inr ⟨x, hx, rfl⟩⟩))
  · intro x hx
    apply horganisation x (hs.publicDomain x hx)
    exact hregistered _ (mem_references.mpr (.inr ⟨x, hx, rfl⟩))

namespace Drafting

theorem mem_sections_draftOf {cs : List Call} {s : Section} :
    s ∈ (draftOf cs).sections ↔ ∃ before after, cs = before ++ .addSection s :: after ∧
      ((addSection s).run (draftOf before)).1 = .ok () := by
  rw [sections_draftOf, SortedBy.mem_ofList_of_nodup (nodup_added cs ∅).1]
  exact mem_added_iff

theorem keptIn_draftOf (before after : List Call) :
    (draftOf before).KeptIn (draftOf (before ++ after)) := by
  have happend : draftOf (before ++ after) = after.foldl next (draftOf before) := List.foldl_append
  rw [happend]
  exact keptIn_foldl after (draftOf before)

/-- The sections of a draft share what is registered exactly if each did when it was taken. -/
theorem sections_share_iff {cs : List Call} :
    (∀ s ∈ (draftOf cs).sections, s.Shares (draftOf cs).license (draftOf cs).organisation) ↔
      ∀ before s after, cs = before ++ .addSection s :: after →
        ((addSection s).run (draftOf before)).1 = .ok () →
        s.Shares (draftOf before).license (draftOf before).organisation := by
  constructor
  · intro h before s after heq hok
    have hs := h s (mem_sections_draftOf.mpr ⟨before, after, heq, hok⟩)
    subst heq
    exact hs.of_keptIn (keptIn_draftOf before _) (addSection_eq_ok_iff.mp hok).2
  · intro h s hs
    obtain ⟨before, after, rfl, hok⟩ := mem_sections_draftOf.mp hs
    exact (h before s after rfl hok).keptIn (keptIn_draftOf before _)

theorem license_draftOf {cs : List Call} {id : String} {l : License} :
    (draftOf cs).license id = .ok l ↔
      (cs.filterMap Call.license?).find? (fun l => l.id = id) = some l := by
  rw [Draft.license, Licenses.lookup_eq_ok, licenses_draftOf, SortedBy.find?_ofList]

theorem organisation_draftOf {cs : List Call} {id : String} {o : Organisation} :
    (draftOf cs).organisation id = .ok o ↔
      (cs.filterMap Call.organisation?).find? (fun o => o.id = id) = some o := by
  rw [Draft.organisation, Organisations.lookup_eq_ok, organisations_draftOf, SortedBy.find?_ofList]

end Drafting

/-- A license text depends on the template and the parameters only. -/
theorem Grant.text_of_license {g : Grant} {l : License}
    (hexpected : l.expected = g.license.expected) (htemplate : l.template = g.license.template) :
    l.text g.parameters = g.text := by
  have haccepts : l.Accepts g.parameters := by
    have h := g.accepted
    rw [License.Accepts, License.missing, License.unexpected, ← hexpected] at h
    exact h
  rw [Grant.text, License.text, License.text, License.checkParameters, License.checkParameters,
    if_pos haccepts, if_pos g.accepted, htemplate]

namespace Drafting

/-- Under an id a descriptor has the license, or the organisation, of the first call that brought
one. Its groups hold the very same, in every field and so in the text of the license, exactly if
each section held what was registered when it was taken. -/
theorem finish_shares {cs : List Call} {license : String} {organisation : Option String}
    {d : Descriptor} (h : (draftOf cs).finish license organisation = .ok d) :
    (∀ id l, d.license id = .ok l ↔
      (cs.filterMap Call.license?).find? (fun l => l.id = id) = some l) ∧
    (∀ id o, d.organisation id = .ok o ↔
      (cs.filterMap Call.organisation?).find? (fun o => o.id = id) = some o) ∧
    (∀ s ∈ d.sections, d.Resolves s ∧ ∀ g ∈ s.grants, ∀ l, d.license g.license.id = .ok l →
      l.expected = g.license.expected → l.template = g.license.template →
        l.text g.parameters = g.text) ∧
    ((∀ s ∈ d.sections, s.Shares d.license d.organisation) ↔
      ∀ before s after, cs = before ++ .addSection s :: after →
        ((addSection s).run (draftOf before)).1 = .ok () →
        s.Shares (draftOf before).license (draftOf before).organisation) := by
  have hconsistent : (draftOf cs).Consistent := consistent_foldl Draft.consistent_empty cs
  have hresolves : ∀ s ∈ (draftOf cs).sections, d.Resolves s := fun s hs =>
    hconsistent.resolves h hs
  obtain ⟨_, _, -, -, rfl⟩ := Draft.finish_eq_ok_iff.mp h
  exact ⟨fun id l => license_draftOf, fun id o => organisation_draftOf, fun s hs =>
    ⟨hresolves s hs, fun g _ l _ hexpected htemplate => g.text_of_license hexpected htemplate⟩,
    sections_share_iff⟩

/-! ## A section that has its own definitions -/

def registering (l : License) (o : Organisation) : List Call :=
  [.addLicense l, .addOrganisation o, .addSection granted]

theorem exists_registering {l : License} {o : Organisation} (hl : l.id = "L") (ho : o.id = "O") :
    ∃ d : Descriptor, (draftOf (registering l o)).finish "L" none = .ok d ∧
      granted ∈ d.sections ∧ d.license "L" = .ok l ∧ d.organisation "O" = .ok o := by
  have hlicense : ∀ cs,
      (draftOf ([.addLicense l, .addOrganisation o] ++ cs)).license "L" = .ok l := by
    intro cs
    apply license_draftOf.mpr
    simp [List.filterMap_cons, Call.license?, hl]
  have horganisation :
      ∀ cs, (draftOf ([.addLicense l, .addOrganisation o] ++ cs)).organisation "O" = .ok o := by
    intro cs
    apply organisation_draftOf.mpr
    simp [List.filterMap_cons, Call.organisation?, ho]
  obtain ⟨d, hfinish⟩ := Draft.exists_finish_none
    (Draft.exists_license_iff.mp ⟨l, hlicense [.addSection granted]⟩)
  have htaken : ((addSection granted).run
      (draftOf [.addLicense l, .addOrganisation o])).1 = .ok () := by
    refine addSection_eq_ok_iff.mpr ⟨?_, ?_⟩
    · rw [sections_draftOf]
      rfl
    · intro r hr
      have hrefs : granted.references = [.license "L", .organisation "O"] := rfl
      rw [hrefs] at hr
      rcases List.mem_cons.mp hr with rfl | hr
      · exact Draft.exists_license_iff.mp ⟨l, hlicense []⟩
      · rw [List.mem_singleton.mp hr]
        exact Draft.exists_organisation_iff.mp ⟨o, horganisation []⟩
  have hmem : granted ∈ (draftOf (registering l o)).sections :=
    mem_sections_draftOf.mpr ⟨[.addLicense l, .addOrganisation o], [], rfl, htaken⟩
  obtain ⟨_, _, -, -, rfl⟩ := Draft.finish_eq_ok_iff.mp hfinish
  exact ⟨_, hfinish, hmem, hlicense [.addSection granted], horganisation [.addSection granted]⟩

/-- The registered license has another name than the granted one, and the same text. -/
theorem finish_shares_registering :
    ∃ d : Descriptor, (draftOf (registering ⟨"L", "Other", "", false, "", ∅⟩
        ⟨"O", "Organisation", ""⟩)).finish "L" none = .ok d ∧
      granted ∈ d.sections ∧ d.Resolves granted ∧
      ∀ g ∈ granted.grants, ∃ l, d.license g.license.id = .ok l ∧ l.name = "Other" ∧
        l.text g.parameters = g.text := by
  obtain ⟨d, hfinish, hmem, hlicense, -⟩ :=
    @exists_registering ⟨"L", "Other", "", false, "", ∅⟩ ⟨"O", "Organisation", ""⟩ rfl rfl
  obtain ⟨-, -, hsections, -⟩ := finish_shares hfinish
  obtain ⟨hresolves, htext⟩ := hsections granted hmem
  refine ⟨d, hfinish, hmem, hresolves, fun g hg => ?_⟩
  cases List.mem_singleton.mp hg
  exact ⟨_, hlicense, rfl, htext _ hg _ hlicense rfl rfl⟩

/-- A group may hold another license than the one that is registered under its id, with another
text, and another organisation likewise. -/
theorem registering_differs :
    ∃ d : Descriptor, (draftOf (registering ⟨"L", "Other", "", true, "other", ∅⟩
        ⟨"O", "Other", ""⟩)).finish "L" none = .ok d ∧
      granted ∈ d.sections ∧ ∃ g ∈ granted.grants,
        (∃ l, d.license g.license.id = .ok l ∧ l.name ≠ g.license.name ∧
          l.sourceRequired ≠ g.license.sourceRequired ∧ l.template ≠ g.license.template ∧
          l.text g.parameters ≠ g.text) ∧
        ∃ h ∈ g.holdings, ∃ o, d.organisation h.organisation.id = .ok o ∧
          o.name ≠ h.organisation.name := by
  obtain ⟨d, hfinish, hmem, hlicense, horganisation⟩ :=
    @exists_registering ⟨"L", "Other", "", true, "other", ∅⟩ ⟨"O", "Other", ""⟩ rfl rfl
  refine ⟨d, hfinish, hmem, _, List.mem_singleton_self _, ⟨_, hlicense, ?_, ?_, ?_, ?_⟩,
    _, List.mem_singleton_self _, _, horganisation, ?_⟩
  · decide
  · decide
  · decide
  · decide +kernel
  · decide

end Drafting

end LicenseAudit
