import LicenseAudit.Descriptor.Query
import LicenseAudit.Proofs.Ordered.Insertion

/-!
# What the tally of parties holds

Whatever the tally walks over, it takes the licenses of the grants and the organisations of the
holdings in turn, resources aside. Of several with one id it holds the one that it met first.
-/

set_option autoImplicit false

namespace LicenseAudit

def Grant.organisations (g : Grant) : List Organisation :=
  g.holdings.toList.map Holding.organisation

/-- The organisations of a section's holdings, those of the public domain first. -/
def Section.organisations (c : Section) : List Organisation :=
  c.publicDomain.toList.map Holding.organisation ++ c.grants.flatMap Grant.organisations

theorem Grant.mem_organisations {g : Grant} {o : Organisation} :
    o ∈ g.organisations ↔ ∃ h ∈ g.holdings, h.organisation = o :=
  List.mem_map

theorem Section.mem_organisations {s : Section} {o : Organisation} :
    o ∈ s.organisations ↔ ∃ h, (h ∈ s.publicDomain ∨ ∃ g ∈ s.grants, h ∈ g.holdings) ∧
      h.organisation = o := by
  simp only [organisations, List.mem_append, List.mem_map, List.mem_flatMap,
    Grant.mem_organisations]
  constructor
  · rintro (⟨h, hh, rfl⟩ | ⟨g, hg, h, hh, rfl⟩)
    · exact ⟨h, .inl hh, rfl⟩
    · exact ⟨h, .inr ⟨g, hg, hh⟩, rfl⟩
  · rintro ⟨h, hh | ⟨g, hg, hh⟩, rfl⟩
    · exact .inl ⟨h, hh, rfl⟩
    · exact .inr ⟨g, hg, h, hh, rfl⟩

/-- All grants of a descriptor, in the order of the walk. -/
def Descriptor.grants (d : Descriptor) : List Grant := d.sections.toList.flatMap Section.grants

theorem Descriptor.mem_grants {d : Descriptor} {g : Grant} :
    g ∈ d.grants ↔ ∃ s ∈ d.sections, g ∈ s.grants :=
  List.mem_flatMap

namespace Parties

def take (t : Parties) (ls : List License) (os : List Organisation) : Parties :=
  ⟨t.licenses.insertAll ls, t.organisations.insertAll os⟩

/-! ## The walk -/

theorem take_take (t : Parties) (ls ls' : List License) (os os' : List Organisation) :
    (t.take ls os).take ls' os' = t.take (ls ++ ls') (os ++ os') := by
  simp only [take, SortedBy.insertAll, List.foldl_append]

theorem foldl_take {α : Type} {walk : α → Parties → Parties} {ls : α → List License}
    {os : α → List Organisation} (h : ∀ a t, walk a t = t.take (ls a) (os a)) (as : List α)
    (t : Parties) :
    as.foldl (fun t a => walk a t) t = t.take (as.flatMap ls) (as.flatMap os) := by
  induction as generalizing t with
  | nil => rfl
  | cons a as ih => rw [List.foldl_cons, ih, h, take_take, List.flatMap_cons, List.flatMap_cons]

theorem walk_holding (h : Holding) (t : Parties) : h.walk walker t = t.take [] [h.organisation] :=
  rfl

theorem foldl_walk_holding (hs : List Holding) (t : Parties) :
    hs.foldl (fun t h => h.walk walker t) t = t.take [] (hs.map Holding.organisation) := by
  rw [foldl_take walk_holding, List.flatMap_eq_nil_iff.mpr fun _ _ => rfl, List.map_eq_flatMap]

theorem walk_grant (g : Grant) (t : Parties) :
    g.walk walker t = t.take [g.license] g.organisations := by
  have hvisit : walker.visit t (.grant g) = t.take [g.license] [] := rfl
  show g.holdings.toList.foldl (fun t h => h.walk walker t) (walker.visit t (.grant g)) = _
  rw [foldl_walk_holding, hvisit, take_take, List.append_nil, List.nil_append]
  rfl

theorem walk_section (c : Section) (t : Parties) :
    c.walk walker t = t.take (c.grants.map Grant.license) c.organisations := by
  show c.grants.foldl (fun t g => g.walk walker t)
    (c.publicDomain.toList.foldl (fun t h => h.walk walker t) t) = _
  rw [foldl_walk_holding, foldl_take walk_grant, take_take, List.nil_append, ← List.map_eq_flatMap]
  rfl

theorem walk_descriptor (d : Descriptor) (t : Parties) :
    d.walk walker t = t.take (d.grants.map Grant.license)
      (d.sections.toList.flatMap Section.organisations) := by
  rw [Descriptor.grants, List.map_flatMap]
  exact foldl_take walk_section _ _

/-! ## The one and only -/

theorem isOnlyLicense_take {ls : List License} {os : List Organisation} {id : String} :
    (start.take ls os).isOnlyLicense id = true ↔ ls ≠ [] ∧ ∀ l ∈ ls, l.id = id := by
  rw [← @SortedBy.size_ofList_eq_one_and_iff License String _ License.id]
  simp only [isOnlyLicense, Bool.and_eq_true, beq_iff_eq, List.all_eq_true]
  rfl

theorem isOnlyOrganisation_take {ls : List License} {os : List Organisation} {id : String} :
    (start.take ls os).isOnlyOrganisation id = true ↔ os ≠ [] ∧ ∀ o ∈ os, o.id = id := by
  rw [← @SortedBy.size_ofList_eq_one_and_iff Organisation String _ Organisation.id]
  simp only [isOnlyOrganisation, Bool.and_eq_true, beq_iff_eq, List.all_eq_true]
  rfl

end Parties

end LicenseAudit
