import LicenseAudit.Proofs.Descriptor.Inventory
import LicenseAudit.Proofs.Descriptor.Traversal
import LicenseAudit.Proofs.Review.Findings

/-!
# What is declared twice

One walk over a drafted descriptor tallies what was supplied for it: a location is a duplicate
exactly if its name was supplied at least twice for its directory, no matter for which groups
(`walk_finds_duplicates`). The tally of one directory is never mixed with that of another, though it
is kept in one place and the directory in the tally's own state.
-/

set_option autoImplicit false

namespace LicenseAudit

/-- A review of a descriptor alone reports the duplicates of one walk. -/
theorem Review.duplicates_findings_none (d : Descriptor) :
    (findings none d).bucket? .duplicate =
      some (d.walk DeclaredNames.walker .start).duplicates := by
  apply bucket?_findings_eq
  intro l
  rw [mem_duplicate_findings]
  exact ((DeclaredNames.holds_walk d).duplicates l).symm

namespace Drafting

/-- The duplicates that a walk finds are the locations that were supplied twice or more, what it
finds declared is all that was supplied, and a review of the descriptor alone reports these
duplicates. -/
theorem walk_finds_duplicates {cs : List Call} {license : String} {organisation : Option String}
    {d : Descriptor} (h : (draftOf cs).finish license organisation = .ok d)
    {xs : List SuppliedSection} (hxs : List.Forall₂ (fun x s => x.make = .ok s) xs (added ∅ cs)) :
    let t := d.walk DeclaredNames.walker .start
    t.misuse? = none ∧
      (∀ l, l ∈ t.duplicates ↔ ∃ x ∈ xs, x.name = l.directory ∧ 2 ≤ x.names.count l.resource) ∧
      (∀ l, l ∈ t.declared ↔ ∃ x ∈ xs, x.name = l.directory ∧ l.resource ∈ x.names) ∧
      (∀ name, name ∈ t.names ↔ ∃ l ∈ t.declared, l.resource = name) ∧
      (∀ x ∈ xs, ∀ name, ⟨x.name, name⟩ ∈ t.duplicates ↔ 2 ≤ x.names.count name) ∧
      ∀ before,
        ((⟨none, before⟩ : Review).run d).report.bucket? .duplicate = some t.duplicates := by
  intro t
  have hmade := made_of_added h hxs
  have hholds : DeclaredNames.Holds d.sections.toList t := DeclaredNames.holds_walk d
  have hduplicates : ∀ l, l ∈ t.duplicates ↔ d.Repeats l := hholds.duplicates
  have hdeclared : ∀ l, l ∈ t.declared ↔ d.Declares l := hholds.declared
  refine ⟨?_, ?_, ?_, hholds.indexed, ?_, fun _ => Review.duplicates_findings_none d⟩
  · rw [DeclaredNames.misuse?, hholds.misplaced]
    rfl
  · exact fun l => (hduplicates l).trans hmade.repeats_iff
  · exact fun l => (hdeclared l).trans hmade.declares_iff
  · exact fun x hx name => (hduplicates _).trans (hmade.repeats_in_iff hx)

/-- A directory whose public domain has a resource that is also licensed. -/
def overstocked : Section :=
  { shelf "a" with
    publicDomain := ⟨[⟨⟨"O", "Offcuts", ""⟩, ⟨[⟨"x", none, none⟩], List.pairwise_singleton _ _⟩⟩],
      List.pairwise_singleton _ _⟩ }

def stocking : List Call :=
  [.addLicense ⟨"L", "License", "", false, "", ∅⟩, .addOrganisation ⟨"O", "Offcuts", ""⟩,
    .addSection (shelf "b"), .addSection overstocked]

/-- The other directory has a resource of that name too, but only one. -/
theorem walk_finds_duplicates_stocking :
    ∃ d : Descriptor, (draftOf stocking).finish "L" none = .ok d ∧
      List.Forall₂ (fun (x : SuppliedSection) s => x.make = .ok s)
        [(shelf "b").supply, overstocked.supply] (added ∅ stocking) ∧
      ⟨"a", "x"⟩ ∈ (d.walk DeclaredNames.walker .start).duplicates ∧
      ⟨"b", "x"⟩ ∉ (d.walk DeclaredNames.walker .start).duplicates ∧
      ⟨"b", "x"⟩ ∈ (d.walk DeclaredNames.walker .start).declared ∧
      (Review.ofDescriptor.run d).report.bucket? .duplicate =
        some (d.walk DeclaredNames.walker .start).duplicates := by
  have hregistered : (draftOf stocking).licenses.contains "L" = true := rfl
  obtain ⟨d, hfinish⟩ := Draft.exists_finish_none hregistered
  have hadded : added ∅ stocking = [shelf "b", overstocked] := rfl
  have hxs : List.Forall₂ (fun (x : SuppliedSection) s => x.make = .ok s)
      [(shelf "b").supply, overstocked.supply] (added ∅ stocking) := by
    rw [hadded]
    exact .cons (Section.make_supply _) (.cons (Section.make_supply _) .nil)
  obtain ⟨-, hduplicates, hdeclared, -, hown, hreported⟩ := walk_finds_duplicates hfinish hxs
  refine ⟨d, hfinish, hxs, ?_, ?_, ?_, hreported .fresh⟩
  · exact (hown overstocked.supply (by simp) "x").mpr (by decide)
  · intro htwice
    exact absurd ((hown (shelf "b").supply (by simp) "x").mp htwice) (by decide)
  · exact (hdeclared _).mpr ⟨(shelf "b").supply, by simp, rfl, by decide⟩

end Drafting

end LicenseAudit
