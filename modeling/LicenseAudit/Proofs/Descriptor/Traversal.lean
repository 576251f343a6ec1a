import LicenseAudit.Proofs.Descriptor.Contents
import LicenseAudit.Proofs.Descriptor.Declarations
import LicenseAudit.Proofs.Descriptor.Layers
import LicenseAudit.Proofs.Descriptor.Supply

/-!
# The walk over a drafted descriptor

A walk over a descriptor goes through the sections that were added to its draft, by name, and in
each of them through what it was made of, in order. Nothing is lost on the way from the loader to
the walk and nothing comes twice: the constructors put things in order, the draft keeps one section
of a name, and neither drops any.
-/

set_option autoImplicit false

namespace LicenseAudit

namespace Descriptor

variable {σ : Type} {d : Descriptor}

/-- A walk over all sections is a walk over one after the other, each found by its name. -/
theorem foldlM_walkSection? (d : Descriptor) (w : Walker σ) (t : σ) :
    (d.sections.toList.map Section.name).foldlM (fun t name => d.walkSection? name w t) t =
      some (d.walk w t) := by
  have hfold : ∀ (ss : List Section), (∀ s ∈ ss, s ∈ d.sections) → ∀ t : σ,
      (ss.map Section.name).foldlM (fun t name => d.walkSection? name w t) t =
        some (ss.foldl (fun t s => s.walk w t) t) := by
    intro ss hss
    induction ss with
    | nil => intro t; rfl
    | cons s ss ih =>
      intro t
      have hfound : d.section? s.name = some s := by
        rw [section?_eq_some_iff]
        exact ⟨hss s List.mem_cons_self, rfl⟩
      rw [List.map_cons, List.foldlM_cons, walkSection?, hfound]
      exact ih (fun s' hs' => hss s' (List.mem_cons_of_mem _ hs')) (s.walk w t)
  exact hfold d.sections.toList (fun _ h => h) t

end Descriptor

namespace Drafting

/-- A walk goes through the sections that were added, by name, and through each of them in order;
one that declines layers leaves out what is behind them. -/
theorem walk_in_order {cs : List Call} {license : String} {organisation : Option String}
    {d : Descriptor} (h : (draftOf cs).finish license organisation = .ok d) :
    d.sections.toList.Perm (added ∅ cs) ∧
      d.sections.toList.Pairwise (fun s s' => s.name < s'.name) ∧
      (∀ s ∈ d.sections, (∃ x : SuppliedSection, x.make = .ok s) ∧
        ∀ x : SuppliedSection, x.make = .ok s → x.InOrder s.stops) ∧
      d.reached.map Prod.fst = d.sections.toList.flatMap Section.stops ∧
      ∀ (σ : Type) (w : Walker σ) (t : σ),
        (w.EntersAll → d.walk w t = (d.sections.toList.flatMap Section.stops).foldl w.visit t) ∧
        (∀ enters, (∀ t layer, w.enters t layer = enters layer) →
          d.walk w t = ((d.reached.filter fun e => e.2.all enters).map Prod.fst).foldl w.visit t) ∧
        (d.sections.toList.map Section.name).foldlM (fun t name => d.walkSection? name w t) t =
          some (d.walk w t) := by
  have hsections : d.sections = .ofList (added ∅ cs) := by
    obtain ⟨l, o, -, -, rfl⟩ := Draft.finish_eq_ok_iff.mp h
    exact sections_draftOf cs
  refine ⟨?_, ?_, fun s _ => ⟨exists_supply s, fun x hx => SuppliedSection.inOrder_stops hx⟩,
    d.map_reached, fun σ w t => ⟨fun hw => d.walk_eq_foldl_stops hw t, fun enters hw => ?_, ?_⟩⟩
  · rw [hsections]
    exact SortedBy.ofList_perm (nodup_added cs ∅).1
  · exact d.sections.ascending.imp fun hlt => compareOfLessAndEq_eq_lt.mp hlt
  · exact d.walk_eq_foldl_kept hw t
  · exact d.foldlM_walkSection? w t

/-- A directory with two resources under a license and one in the public domain. -/
def shelf (name : String) : Section where
  name := name
  grants := [⟨⟨"L", "License", "", false, "", ∅⟩, none, ∅,
    ⟨[⟨⟨"O", "Offcuts", ""⟩,
      ⟨[⟨"x", none, none⟩, ⟨"y", none, none⟩], List.pairwise_pair.mpr rfl⟩⟩],
      List.pairwise_singleton _ _⟩, ⟨rfl, rfl⟩⟩]
  publicDomain :=
    ⟨[⟨⟨"O", "Offcuts", ""⟩, ⟨[⟨"w", none, none⟩], List.pairwise_singleton _ _⟩⟩],
      List.pairwise_singleton _ _⟩

/-- Two shelves are filed, the later name first, and one of them once more. -/
def filing : List Call :=
  [.addLicense ⟨"L", "License", "", false, "", ∅⟩, .addOrganisation ⟨"O", "Offcuts", ""⟩,
    .addSection (shelf "b"), .addSection (shelf "a"), .addSection (shelf "b")]

/-- Takes down names of resources, but declines the public domain. -/
def licensedNames : Walker (List String) where
  enters _ layer := layer != .publicDomain
  visit
    | names, .resource r => names ++ [r.name]
    | names, _ => names

theorem walk_in_order_filed :
    ∃ d : Descriptor, (draftOf filing).finish "L" none = .ok d ∧
      d.sections.toList.Perm [shelf "b", shelf "a"] ∧
      d.sections.toList.Pairwise (fun s s' => s.name < s'.name) ∧
      (∃ x : SuppliedSection, x.make = .ok (shelf "a") ∧ x.InOrder (shelf "a").stops) ∧
      ((d.reached.filter fun e => e.2.all (· != .publicDomain)).map Prod.fst).foldl
        licensedNames.visit [] = ["x", "y", "x", "y"] ∧
      (d.sections.toList.map Section.name).foldlM
        (fun names name => d.walkSection? name licensedNames names) [] =
          some ["x", "y", "x", "y"] := by
  have hregistered : (draftOf filing).licenses.contains "L" = true := rfl
  obtain ⟨d, hfinish⟩ := Draft.exists_finish_none hregistered
  have hsections : d.sections.toList = [shelf "a", shelf "b"] := by
    obtain ⟨_, _, -, -, rfl⟩ := Draft.finish_eq_ok_iff.mp hfinish
    rfl
  have hwalk : d.walk licensedNames [] = ["x", "y", "x", "y"] := by
    rw [Descriptor.walk, hsections]
    rfl
  have ha : shelf "a" ∈ d.sections := by
    rw [SortedBy.mem_iff_mem_toList, hsections]
    exact List.mem_cons_self
  obtain ⟨hperm, hascending, hordered, -, hall⟩ := walk_in_order hfinish
  obtain ⟨-, hkept, hnamed⟩ := hall (List String) licensedNames []
  obtain ⟨⟨x, hx⟩, hinOrder⟩ := hordered _ ha
  rw [← hwalk]
  exact ⟨d, hfinish, hperm, hascending, ⟨x, hx, hinOrder x hx⟩, (hkept _ fun _ _ => rfl).symm,
    hnamed⟩

end Drafting

end LicenseAudit
