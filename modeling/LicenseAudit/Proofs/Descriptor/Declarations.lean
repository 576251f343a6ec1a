import Mathlib.Data.List.Nodup
import LicenseAudit.Descriptor.Stops
import LicenseAudit.Proofs.Ordered.Insertion

/-!
# What a descriptor declares

What a descriptor says about a location, without any walk: that it declares it, that it declares it
more than once, and that it declares it under a license that requires a source and gives none. The
declarations of a directory are those of its one section: of the public domain and of all grants,
repeats included.
-/

set_option autoImplicit false

namespace LicenseAudit

theorem Resource.hasSource_iff {r : Resource} :
    r.hasSource = true ↔ ∃ source, r.source = some source ∧ source ≠ "" := by
  unfold hasSource
  cases r.source with
  | none => simp
  | some source => simp

/-- The resources of a grant, once for each time that it declares them. -/
def Grant.resources (g : Grant) : List Resource :=
  g.holdings.toList.flatMap fun h => h.resources.toList

/-- The resources of a section, once for each time that it declares them. -/
def Section.resources (s : Section) : List Resource :=
  (s.publicDomain.toList.flatMap fun h => h.resources.toList) ++ s.grants.flatMap Grant.resources

/-- The names of a section's resources, once for each time that it declares them. -/
def Section.names (s : Section) : List String := s.resources.map Resource.name

/-- A grant has a resource of this name that needs a source, and has one or has none. -/
def Section.Links (s : Section) (hasSource : Bool) (name : String) : Prop :=
  ∃ g ∈ s.grants, g.license.sourceRequired = true ∧
    ∃ r ∈ g.resources, r.name = name ∧ r.hasSource = hasSource

theorem Section.exists_mem_concat {cs : List Section} {c : Section} {P : Section → Prop} :
    (∃ x ∈ cs ++ [c], P x) ↔ (∃ x ∈ cs, P x) ∨ P c := by
  simp only [List.mem_append, List.mem_singleton, or_and_right, exists_or, exists_eq_left]

namespace Descriptor

/-- The location is declared, licensed or in the public domain. -/
def Declares (d : Descriptor) (l : Location) : Prop :=
  ∃ s ∈ d.sections, s.name = l.directory ∧ l.resource ∈ s.names

/-- The location is declared more than once. -/
def Repeats (d : Descriptor) (l : Location) : Prop :=
  ∃ s ∈ d.sections, s.name = l.directory ∧ 2 ≤ s.names.count l.resource

/-- The location is declared under a license that requires a source, with one or without. -/
def Links (d : Descriptor) (hasSource : Bool) (l : Location) : Prop :=
  ∃ s ∈ d.sections, s.name = l.directory ∧ s.Links hasSource l.resource

variable {d : Descriptor}

theorem section?_eq_some_iff {name : String} {s : Section} :
    d.section? name = some s ↔ s ∈ d.sections ∧ s.name = name :=
  SortedBy.find?_eq_some_iff

theorem nodup_section_names (d : Descriptor) : (d.sections.toList.map Section.name).Nodup :=
  SortedBy.nodup_keys _

/-! ## Descriptors with nothing wrong in them -/

/-- Nothing is wrong with the descriptor itself. -/
structure Sound (d : Descriptor) : Prop where
  once : ∀ s ∈ d.sections, s.names.Nodup
  sourced : ∀ s ∈ d.sections, ∀ g ∈ s.grants, g.license.sourceRequired = true →
    ∀ r ∈ g.resources, ∃ source, r.source = some source ∧ source ≠ ""

theorem sound_iff : d.Sound ↔ (∀ l, ¬d.Repeats l) ∧ ∀ l, ¬d.Links false l := by
  constructor
  · intro h
    constructor
    · intro l hx
      obtain ⟨s, hs, -, hcount⟩ := hx
      have hle := List.nodup_iff_count_le_one.mp (h.once s hs) l.resource
      omega
    · intro l hx
      obtain ⟨s, hs, -, g, hg, hrequired, r, hr, -, hnone⟩ := hx
      rw [Resource.hasSource_iff.mpr (h.sourced s hs g hg hrequired r hr)] at hnone
      cases hnone
  · intro hx
    obtain ⟨hrepeats, hlinks⟩ := hx
    constructor
    · intro s hs
      apply List.nodup_iff_count_le_one.mpr
      intro name
      by_contra hcount
      have htwice : 2 ≤ s.names.count name := by omega
      exact hrepeats ⟨s.name, name⟩ ⟨s, hs, rfl, htwice⟩
    · intro s hs g hg hrequired r hr
      apply Resource.hasSource_iff.mp
      rw [← Bool.not_eq_false]
      intro hnone
      exact hlinks ⟨s.name, r.name⟩ ⟨s, hs, rfl, g, hg, hrequired, r, hr, rfl, hnone⟩

/-! ## Descriptors of one directory -/

/-- A descriptor of one directory whose content is all in the public domain. -/
def publicIn (directory : String) (names : List String) : Descriptor where
  primaryLicense := ⟨"L", "License", "", false, "", ∅⟩
  primaryOrganisation := none
  primaryCopyrightNotice := none
  primaryNotice := none
  licenses := .ofList [⟨"L", "License", "", false, "", ∅⟩]
  organisations := .ofList [⟨"O", "Organisation", ""⟩]
  notices := ∅
  sections := .ofList [.ofGroups directory []
    [.ofResources ⟨"O", "Organisation", ""⟩ (names.map fun name => ⟨name, none, none⟩)]]

theorem names_publicIn {directory : String} {names : List String} :
    ∃ s, (publicIn directory names).sections.toList = [s] ∧ s.name = directory ∧
      s.grants = [] ∧ s.names.Perm names := by
  let rs : List Resource := names.map fun name => ⟨name, none, none⟩
  have hnames : rs.map Resource.name = names := List.map_map.trans (List.map_id names)
  have hperm :
      ((Arranged.ofList rs : Arranged Resource.name).toList.map Resource.name).Perm names := by
    rw [← hnames]
    exact (Arranged.ofList_perm rs).map Resource.name
  have hone : (Arranged.ofList [Holding.ofResources ⟨"O", "Organisation", ""⟩ rs] :
      Arranged Holding.rank).toList = [Holding.ofResources ⟨"O", "Organisation", ""⟩ rs] :=
    List.mergeSort_singleton _
  refine ⟨.ofGroups directory [] [.ofResources ⟨"O", "Organisation", ""⟩ rs], rfl, rfl, rfl, ?_⟩
  simp only [Section.names, Section.resources, Section.ofGroups, hone, List.flatMap_cons,
    List.flatMap_nil, List.append_nil]
  exact hperm

theorem declares_publicIn {directory : String} {names : List String} {l : Location} :
    (publicIn directory names).Declares l ↔ directory = l.directory ∧ l.resource ∈ names := by
  obtain ⟨s, hs, rfl, -, hperm⟩ := @names_publicIn directory names
  have hmem : ∀ x, x ∈ (publicIn s.name names).sections ↔ x = s := by
    intro x
    show x ∈ (publicIn s.name names).sections.toList ↔ _
    rw [hs, List.mem_singleton]
  simp only [Declares, hmem, exists_eq_left, hperm.mem_iff]

end Descriptor

end LicenseAudit
