import LicenseAudit.Proofs.Descriptor.Drafting
import LicenseAudit.Proofs.Tally.Parties

/-!
# Nothing but primary content

The question is put to a grant, to a section or to the whole descriptor, and each time it is
answered from the licenses and the organisations met there, taken apart from each other
(`isOnlyPrimaryIn_iff`). Content that is primary throughout is recognised
(`isOnlyPrimaryIn_of_allPrimary`). The other way round, the public domain of the primary
organisation adds no license and no other organisation, so it does not change the answer, and it can
even stand in for the holdings of the grants. Where there is no public domain, and so in every
grant, the answer is exact.
-/

set_option autoImplicit false

namespace LicenseAudit

/-- What can be asked about in a descriptor: a grant, a section, or all of it. -/
inductive Subtree where
  | grant (g : Grant)
  | directory (s : Section)
  | whole

namespace Subtree

def grants (d : Descriptor) : Subtree → List Grant
  | grant g => [g]
  | directory s => s.grants
  | whole => d.grants

def publicDomain (d : Descriptor) : Subtree → List Holding
  | grant _ => []
  | directory s => s.publicDomain.toList
  | whole => d.sections.toList.flatMap fun s => s.publicDomain.toList

/-- A holding of the subtree, in the public domain or under a grant. -/
def Holds (d : Descriptor) (x : Subtree) (h : Holding) : Prop :=
  h ∈ x.publicDomain d ∨ ∃ g ∈ x.grants d, h ∈ g.holdings

/-- There is content, and all of it lies under the primary license and is the primary
organisation's. -/
def AllPrimary (d : Descriptor) (x : Subtree) : Prop :=
  ∃ primary, d.primaryOrganisation = some primary ∧
    (∃ g ∈ x.grants d, ∃ h, h ∈ g.holdings) ∧
    (∀ g ∈ x.grants d, g.license.id = d.primaryLicense.id) ∧
    x.publicDomain d = [] ∧
    ∀ g ∈ x.grants d, ∀ h ∈ g.holdings, h.organisation.id = primary.id

/-- The organisations of the holdings, in the order of the walk. -/
def organisations (d : Descriptor) : Subtree → List Organisation
  | grant g => g.organisations
  | directory s => s.organisations
  | whole => d.sections.toList.flatMap Section.organisations

variable {d : Descriptor} {x : Subtree}

theorem mem_organisations {o : Organisation} :
    o ∈ x.organisations d ↔ ∃ h, x.Holds d h ∧ h.organisation = o := by
  cases x with
  | grant g =>
    have hholds : ∀ h, (grant g).Holds d h ↔ h ∈ g.holdings := by
      intro h
      simp [Holds, publicDomain, grants]
    simp only [hholds]
    exact Grant.mem_organisations
  | directory s => exact Section.mem_organisations
  | whole =>
    simp only [organisations, List.mem_flatMap, Section.mem_organisations, Holds, publicDomain,
      grants, Descriptor.mem_grants]
    constructor
    · rintro ⟨s, hs, h, hh | ⟨g, hg, hh⟩, rfl⟩
      · exact ⟨h, .inl ⟨s, hs, hh⟩, rfl⟩
      · exact ⟨h, .inr ⟨g, ⟨s, hs, hg⟩, hh⟩, rfl⟩
    · rintro ⟨h, ⟨s, hs, hh⟩ | ⟨g, ⟨s, hs, hg⟩, hh⟩, rfl⟩
      · exact ⟨s, hs, h, .inl hh, rfl⟩
      · exact ⟨s, hs, h, .inr ⟨g, hg, hh⟩, rfl⟩

end Subtree

namespace Descriptor

/-- Whether a subtree involves the primary license and organisation, and no other. -/
def isOnlyPrimaryIn (d : Descriptor) : Subtree → Bool
  | .grant g => d.isOnlyPrimaryGrant g
  | .directory s => d.isOnlyPrimarySection s
  | .whole => d.isOnlyPrimary

variable {d : Descriptor} {x : Subtree}

/-- The answer is taken from the licenses of the grants and the organisations of all holdings. -/
theorem isOnlyPrimaryIn_eq (d : Descriptor) (x : Subtree) :
    d.isOnlyPrimaryIn x =
      d.areOnlyPrimary
        (Parties.start.take ((x.grants d).map Grant.license) (x.organisations d)) := by
  cases x with
  | grant g =>
    rw [isOnlyPrimaryIn, isOnlyPrimaryGrant, Parties.walk_grant]
    rfl
  | directory s =>
    rw [isOnlyPrimaryIn, isOnlyPrimarySection, Parties.walk_section]
    rfl
  | whole =>
    rw [isOnlyPrimaryIn, isOnlyPrimary, Parties.walk_descriptor]
    rfl

theorem areOnlyPrimary_iff {t : Parties} :
    d.areOnlyPrimary t = true ↔ ∃ primary, d.primaryOrganisation = some primary ∧
      t.isOnlyLicense d.primaryLicense.id = true ∧ t.isOnlyOrganisation primary.id = true := by
  rw [areOnlyPrimary, Bool.and_eq_true]
  cases d.primaryOrganisation with
  | none => simp
  | some primary => simp

theorem isOnlyPrimaryIn_iff :
    d.isOnlyPrimaryIn x = true ↔ ∃ primary, d.primaryOrganisation = some primary ∧
      (x.grants d ≠ [] ∧ ∀ g ∈ x.grants d, g.license.id = d.primaryLicense.id) ∧
      (∃ h, x.Holds d h) ∧ ∀ h, x.Holds d h → h.organisation.id = primary.id := by
  have hsome : x.organisations d ≠ [] ↔ ∃ h, x.Holds d h := by
    constructor
    · intro hne
      obtain ⟨o, ho⟩ := List.exists_mem_of_ne_nil _ hne
      obtain ⟨h, hh, -⟩ := Subtree.mem_organisations.mp ho
      exact ⟨h, hh⟩
    · rintro ⟨h, hh⟩
      exact List.ne_nil_of_mem (Subtree.mem_organisations.mpr ⟨h, hh, rfl⟩)
  have hall : ∀ primary : Organisation, (∀ o ∈ x.organisations d, o.id = primary.id) ↔
      ∀ h, x.Holds d h → h.organisation.id = primary.id := by
    intro primary
    simp only [Subtree.mem_organisations]
    constructor
    · intro hids h hh
      exact hids _ ⟨h, hh, rfl⟩
    · rintro hids o ⟨h, hh, rfl⟩
      exact hids h hh
  rw [isOnlyPrimaryIn_eq, areOnlyPrimary_iff]
  simp only [Parties.isOnlyLicense_take, Parties.isOnlyOrganisation_take, hsome, hall, ne_eq,
    List.map_eq_nil_iff, List.forall_mem_map]

theorem isOnlyPrimaryIn_of_allPrimary (h : x.AllPrimary d) : d.isOnlyPrimaryIn x = true := by
  obtain ⟨primary, hprimary, ⟨g, hg, hold, hhold⟩, hlicenses, hnone, horganisations⟩ := h
  refine isOnlyPrimaryIn_iff.mpr ⟨primary, hprimary, ⟨List.ne_nil_of_mem hg, hlicenses⟩,
    ⟨hold, .inr ⟨g, hg, hhold⟩⟩, ?_⟩
  rintro h (hh | ⟨g', hg', hh⟩)
  · simp [hnone] at hh
  · exact horganisations g' hg' h hh

theorem allPrimary_of_isOnlyPrimaryIn (hnone : x.publicDomain d = [])
    (h : d.isOnlyPrimaryIn x = true) : x.AllPrimary d := by
  obtain ⟨primary, hprimary, ⟨-, hlicenses⟩, ⟨hold, hhold⟩, horganisations⟩ :=
    isOnlyPrimaryIn_iff.mp h
  have hgranted : ∃ g ∈ x.grants d, hold ∈ g.holdings := by
    rcases hhold with hhold | hgranted
    · simp [hnone] at hhold
    · exact hgranted
  obtain ⟨g, hg, hhold⟩ := hgranted
  refine ⟨primary, hprimary, ⟨g, hg, hold, hhold⟩, hlicenses, hnone, ?_⟩
  intro g hg h hh
  exact horganisations h (.inr ⟨g, hg, hh⟩)

/-- The answer is yes exactly if there are grants, all of the primary license, and holdings, all of
the primary organisation, in the public domain or not. Content that is primary throughout gives yes;
and where the answer is yes, only a public domain can keep the content from being so. -/
theorem isOnlyPrimaryIn_decides (d : Descriptor) (x : Subtree) :
    (d.isOnlyPrimaryIn x = true ↔ ∃ primary, d.primaryOrganisation = some primary ∧
      (x.grants d ≠ [] ∧ ∀ g ∈ x.grants d, g.license.id = d.primaryLicense.id) ∧
      (∃ h, x.Holds d h) ∧ ∀ h, x.Holds d h → h.organisation.id = primary.id) ∧
    (x.AllPrimary d → d.isOnlyPrimaryIn x = true) ∧
    (d.isOnlyPrimaryIn x = true → (x.AllPrimary d ↔ x.publicDomain d = [])) := by
  refine ⟨isOnlyPrimaryIn_iff, isOnlyPrimaryIn_of_allPrimary, fun h => ⟨?_, fun hnone => ?_⟩⟩
  · rintro ⟨primary, -, -, -, hnone, -⟩
    exact hnone
  · exact allPrimary_of_isOnlyPrimaryIn hnone h

/-! ## Public domain of the primary organisation -/

/-- What the organisation holds: one resource. -/
def held (name : String) : Arranged Holding.rank :=
  ⟨[⟨⟨"O", "Organisation", ""⟩, ⟨[⟨name, none, none⟩], List.pairwise_singleton _ _⟩⟩],
    List.pairwise_singleton _ _⟩

def house : License := ⟨"H", "House", "", false, "", ∅⟩

/-- A directory with a resource under the primary license, and with this public domain. -/
def beside (publicDomain : Arranged Holding.rank) : Section where
  name := "a"
  grants := [⟨house, none, ∅, held "r", ⟨rfl, rfl⟩⟩]
  publicDomain := publicDomain

def besides (publicDomain : Arranged Holding.rank) : List Drafting.Call :=
  [.addLicense house, .addOrganisation ⟨"O", "Organisation", ""⟩,
    .addSection (beside publicDomain)]

theorem exists_besides {publicDomain : Arranged Holding.rank}
    (hlicense : (Drafting.draftOf (besides publicDomain)).license "H" = .ok house)
    (horganisation : (Drafting.draftOf (besides publicDomain)).organisation "O" =
      .ok ⟨"O", "Organisation", ""⟩)
    (hsections : (Drafting.draftOf (besides publicDomain)).sections.toList =
      [beside publicDomain]) :
    ∃ d : Descriptor, (Drafting.draftOf (besides publicDomain)).finish "H" (some "O") = .ok d ∧
      d.primaryLicense.id = "H" ∧ d.primaryOrganisation = some ⟨"O", "Organisation", ""⟩ ∧
      d.sections.toList = [beside publicDomain] := by
  refine ⟨_, Draft.finish_eq_ok_iff.mpr ⟨_, some _, hlicense, ?_, rfl⟩, rfl, rfl, hsections⟩
  rw [Option.mapM_some, horganisation]
  rfl

/-- Without a public domain the content of the directory is primary throughout, and the answer says
so. -/
theorem isOnlyPrimaryIn_decides_besides :
    ∃ d : Descriptor, (Drafting.draftOf (besides default)).finish "H" (some "O") = .ok d ∧
      d.isOnlyPrimaryIn (.directory (beside default)) = true ∧
      (Subtree.directory (beside default)).AllPrimary d := by
  obtain ⟨d, hd, hlicense, horganisation, -⟩ := @exists_besides default rfl rfl rfl
  have hholds : ∀ h, (Subtree.directory (beside default)).Holds d h →
      h.organisation.id = "O" := by
    rintro h (hh | ⟨g, hg, hh⟩)
    · cases hh
    · rw [List.mem_singleton.mp hg] at hh
      rw [List.mem_singleton.mp hh]
  obtain ⟨hdecides, -, honly⟩ := isOnlyPrimaryIn_decides d (.directory (beside default))
  have hanswer : d.isOnlyPrimaryIn (.directory (beside default)) = true := by
    refine hdecides.mpr ⟨_, horganisation, ⟨List.cons_ne_nil _ _, fun g hg => ?_⟩,
      ⟨_, .inr ⟨_, List.mem_singleton_self _, List.mem_singleton_self _⟩⟩, hholds⟩
    rw [List.mem_singleton.mp hg, hlicense]
    rfl
  exact ⟨d, hd, hanswer, (honly hanswer).mpr rfl⟩

/-- A resource in the public domain of the primary organisation leaves the answer as it was, for its
directory and for the whole descriptor, though it is under no license. -/
theorem besides_answered :
    ∃ d : Descriptor, (Drafting.draftOf (besides (held "p"))).finish "H" (some "O") = .ok d ∧
      beside (held "p") ∈ d.sections ∧
      d.isOnlyPrimarySection (beside (held "p")) = true ∧ d.isOnlyPrimary = true ∧
      ¬(Subtree.directory (beside (held "p"))).AllPrimary d ∧ ¬Subtree.whole.AllPrimary d := by
  obtain ⟨d, hd, hlicense, horganisation, hsections⟩ := @exists_besides (held "p") rfl rfl rfl
  have hmem : beside (held "p") ∈ d.sections := by
    rw [SortedBy.mem_iff_mem_toList, hsections]
    exact List.mem_singleton_self _
  have hlicenses : d.areOnlyPrimary (Parties.start.take [house]
      [⟨"O", "Organisation", ""⟩, ⟨"O", "Organisation", ""⟩]) = true := by
    refine areOnlyPrimary_iff.mpr ⟨_, horganisation, ?_, rfl⟩
    rw [hlicense]
    rfl
  refine ⟨d, hd, hmem, ?_, ?_, ?_, ?_⟩
  · rw [isOnlyPrimarySection, Parties.walk_section]
    exact hlicenses
  · rw [isOnlyPrimary, Parties.walk_descriptor, grants, hsections]
    exact hlicenses
  · rintro ⟨-, -, -, -, hnone, -⟩
    cases hnone
  · rintro ⟨-, -, -, -, hnone, -⟩
    rw [Subtree.publicDomain, hsections] at hnone
    cases hnone

end Descriptor

end LicenseAudit
