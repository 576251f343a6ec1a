import Mathlib.Data.List.Perm.Basic
import LicenseAudit.Proofs.Descriptor.Contents
import LicenseAudit.Proofs.Descriptor.Declarations
import LicenseAudit.Proofs.Descriptor.Supply

/-!
# What was supplied is what is declared

A drafted descriptor is made of what was supplied for the sections that were added, if in another
order (`made_of_added`). Putting things in order takes nothing away, so what the descriptor
declares, declares twice and declares without a source can be read off the supplies
(`Descriptor.MadeOf.declares_iff` and what follows it), where no order has been made yet.
-/

set_option autoImplicit false

namespace LicenseAudit

/-! ## In another order -/

/-- The second list has a counterpart for each element of the first, in any order. -/
def ReorderedBy {α β : Type} (R : α → β → Prop) (xs : List α) (ys : List β) : Prop :=
  ∃ zs, xs.Perm zs ∧ List.Forall₂ R zs ys

namespace ReorderedBy

variable {α β γ : Type} {R : α → β → Prop} {xs : List α} {ys : List β}

theorem refl {R : α → α → Prop} (h : ∀ x, R x x) (xs : List α) : ReorderedBy R xs xs :=
  ⟨xs, List.Perm.refl _, List.forall₂_same.mpr fun x _ => h x⟩

theorem of_forall₂_perm {ys' : List β} (h : List.Forall₂ R xs ys) (hperm : ys.Perm ys') :
    ReorderedBy R xs ys' := by
  have hcomp : Relation.Comp (List.Forall₂ R) List.Perm xs ys' := ⟨ys, h, hperm⟩
  rw [List.forall₂_comp_perm_eq_perm_comp_forall₂] at hcomp
  exact hcomp

theorem exists_iff {P : α → Prop} {Q : β → Prop} (h : ReorderedBy R xs ys)
    (hPQ : ∀ x y, R x y → (P x ↔ Q y)) : (∃ x ∈ xs, P x) ↔ ∃ y ∈ ys, Q y := by
  obtain ⟨zs, hperm, hall⟩ := h
  simp only [hperm.mem_iff]
  clear hperm
  induction hall with
  | nil => simp
  | cons hxy _ ih => simp only [List.exists_mem_cons_iff, hPQ _ _ hxy, ih]

theorem flatMap_perm {f : α → List γ} {g : β → List γ} (h : ReorderedBy R xs ys)
    (hfg : ∀ x y, R x y → (f x).Perm (g y)) : (xs.flatMap f).Perm (ys.flatMap g) := by
  obtain ⟨zs, hperm, hall⟩ := h
  refine (hperm.flatMap_right f).trans ?_
  clear hperm
  induction hall with
  | nil => exact .refl _
  | cons hxy _ ih => exact (hfg _ _ hxy).append ih

end ReorderedBy

/-! ## Supplies -/

/-- The resources supplied for a grant, once for each time. -/
def SuppliedGrant.resources (x : SuppliedGrant) : List Resource :=
  x.holdings.flatMap SuppliedHolding.resources

/-- The resources supplied for a section, once for each time. -/
def SuppliedSection.resources (x : SuppliedSection) : List Resource :=
  x.publicDomain.flatMap SuppliedHolding.resources ++ x.grants.flatMap SuppliedGrant.resources

def SuppliedSection.names (x : SuppliedSection) : List String := x.resources.map Resource.name

/-- A resource of this name is supplied for a grant that needs a source, with one or without. -/
def SuppliedSection.Links (x : SuppliedSection) (hasSource : Bool) (name : String) : Prop :=
  ∃ g ∈ x.grants, g.license.sourceRequired = true ∧
    ∃ r ∈ g.resources, r.name = name ∧ r.hasSource = hasSource

theorem resources_perm_holdings (xs : List SuppliedHolding) :
    ((Arranged.ofList (xs.map SuppliedHolding.make) : Arranged Holding.rank).toList.flatMap
      fun h => h.resources.toList).Perm (xs.flatMap SuppliedHolding.resources) := by
  refine ((Arranged.ofList_perm _).flatMap_right _).trans ?_
  rw [List.flatMap_map]
  apply List.Perm.flatMap_left
  intro x _
  exact Arranged.ofList_perm x.resources

theorem SuppliedGrant.resources_perm {x : SuppliedGrant} {g : Grant} (h : x.make = .ok g) :
    x.resources.Perm g.resources := by
  rw [Grant.resources, (Grant.make_eq_ok h).2]
  exact (resources_perm_holdings x.holdings).symm

namespace SuppliedSection

variable {x : SuppliedSection} {s : Section}

theorem name_of_make (h : x.make = .ok s) : s.name = x.name := by
  obtain ⟨gs, -, rfl⟩ := make_eq_ok_iff.mp h
  rfl

theorem grants_of_make (h : x.make = .ok s) :
    ReorderedBy (fun x g => SuppliedGrant.make x = .ok g) x.grants s.grants := by
  obtain ⟨gs, hgs, rfl⟩ := make_eq_ok_iff.mp h
  exact ⟨_, List.Perm.refl _, hgs⟩

theorem names_perm (h : x.make = .ok s) : x.names.Perm s.names := by
  have hgrants := (grants_of_make h).flatMap_perm fun _ _ hg => SuppliedGrant.resources_perm hg
  obtain ⟨gs, -, rfl⟩ := make_eq_ok_iff.mp h
  exact ((resources_perm_holdings x.publicDomain).symm.append hgrants).map Resource.name

theorem links_iff (h : x.make = .ok s) {hasSource : Bool} {name : String} :
    x.Links hasSource name ↔ s.Links hasSource name := by
  apply (grants_of_make h).exists_iff
  intro x g hg
  rw [(Grant.make_eq_ok hg).1]
  simp only [(SuppliedGrant.resources_perm hg).mem_iff]

end SuppliedSection

/-! ## Descriptors -/

/-- The sections of a descriptor are made of these supplies. -/
def Descriptor.MadeOf (d : Descriptor) (xs : List SuppliedSection) : Prop :=
  ReorderedBy (fun x s => x.make = .ok s) xs d.sections.toList

namespace Descriptor.MadeOf

variable {d : Descriptor} {xs : List SuppliedSection} {l : Location}

theorem exists_section_iff {P : SuppliedSection → Prop} {Q : Section → Prop} (h : d.MadeOf xs)
    (hPQ : ∀ x s, x.make = .ok s → (P x ↔ Q s)) :
    (∃ s ∈ d.sections, s.name = l.directory ∧ Q s) ↔ ∃ x ∈ xs, x.name = l.directory ∧ P x := by
  have hboth : ∀ (x : SuppliedSection) (s : Section), x.make = .ok s →
      (x.name = l.directory ∧ P x ↔ s.name = l.directory ∧ Q s) := by
    intro x s hx
    rw [SuppliedSection.name_of_make hx, hPQ x s hx]
  exact (h.exists_iff hboth).symm

theorem declares_iff (h : d.MadeOf xs) :
    d.Declares l ↔ ∃ x ∈ xs, x.name = l.directory ∧ l.resource ∈ x.names :=
  h.exists_section_iff fun _ _ hx => (SuppliedSection.names_perm hx).mem_iff

theorem repeats_iff (h : d.MadeOf xs) :
    d.Repeats l ↔ ∃ x ∈ xs, x.name = l.directory ∧ 2 ≤ x.names.count l.resource :=
  h.exists_section_iff fun _ _ hx => by rw [(SuppliedSection.names_perm hx).count_eq]

theorem links_iff (h : d.MadeOf xs) {hasSource : Bool} :
    d.Links hasSource l ↔ ∃ x ∈ xs, x.name = l.directory ∧ x.Links hasSource l.resource :=
  h.exists_section_iff fun _ _ hx => SuppliedSection.links_iff hx

/-- No two supplies are for the same directory. -/
theorem eq_of_name_eq (h : d.MadeOf xs) {x x' : SuppliedSection} (hx : x ∈ xs) (hx' : x' ∈ xs)
    (hname : x.name = x'.name) : x = x' := by
  have hperm : (xs.map SuppliedSection.name).Perm (d.sections.toList.map Section.name) := by
    rw [List.map_eq_flatMap, List.map_eq_flatMap]
    apply h.flatMap_perm
    intro x s hs
    rw [SuppliedSection.name_of_make hs]
  have hnodup : (xs.map SuppliedSection.name).Nodup := hperm.nodup_iff.mpr d.nodup_section_names
  exact List.inj_on_of_nodup_map hnodup hx hx' hname

/-- Whatever other directories have, a location is repeated by the supplies of its own. -/
theorem repeats_in_iff (h : d.MadeOf xs) {x : SuppliedSection} (hx : x ∈ xs) {name : String} :
    d.Repeats ⟨x.name, name⟩ ↔ 2 ≤ x.names.count name := by
  rw [h.repeats_iff]
  constructor
  · intro hsome
    obtain ⟨x', hx', hname, hcount⟩ := hsome
    rw [h.eq_of_name_eq hx' hx hname] at hcount
    exact hcount
  · intro hcount
    exact ⟨x, hx, rfl, hcount⟩

end Descriptor.MadeOf

/-- A drafted descriptor is made of what was supplied for the sections that were added. -/
theorem Drafting.made_of_added {cs : List Call} {license : String} {organisation : Option String}
    {d : Descriptor} (h : (draftOf cs).finish license organisation = .ok d)
    {xs : List SuppliedSection} (hxs : List.Forall₂ (fun x s => x.make = .ok s) xs (added ∅ cs)) :
    d.MadeOf xs := by
  obtain ⟨l, o, -, -, rfl⟩ := Draft.finish_eq_ok_iff.mp h
  apply ReorderedBy.of_forall₂_perm hxs
  show (added ∅ cs).Perm (draftOf cs).sections.toList
  rw [sections_draftOf]
  exact (SortedBy.ofList_perm (nodup_added cs ∅).1).symm

end LicenseAudit
