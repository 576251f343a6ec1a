import Mathlib.Data.List.Sort
import LicenseAudit.Proofs.Descriptor.Sharing
import LicenseAudit.Proofs.Descriptor.Supply
import LicenseAudit.Proofs.License.Rendering

/-!
# Parameters that are refused

Names are refused for one of two reasons. One that repeats an earlier one is refused first, and of
several the first in the list (`FirstRepeat`), even where the names would not match either. Names
that differ from the ones expected are refused with both differences, each in ascending order
(`License.Mismatch`), so the order in which they were supplied does not show.

What a grant is made with is kept with the license that it was compared with. Its text needs no
further check, and it is the same wherever the grant is stored (`Grant.text_eq`).
-/

set_option autoImplicit false

namespace LicenseAudit

open License Template

/-! ## The first repeat -/

/-- The first element of a list that is equal to an earlier one. -/
def FirstRepeat (x : String) (l : List String) : Prop :=
  ∃ before after, l = before ++ x :: after ∧ before.Nodup ∧ x ∈ before

theorem firstRepeat?_eq_some_iff {seen l : List String} {x : String} :
    firstRepeat? seen l = some x ↔ ∃ before after, l = before ++ x :: after ∧
      firstRepeat? seen before = none ∧ (x ∈ seen ∨ x ∈ before) := by
  induction l generalizing seen with
  | nil => simp [firstRepeat?]
  | cons y l ih =>
    rw [firstRepeat?]
    split
    · rename_i hy
      constructor
      · rintro ⟨⟩
        exact ⟨[], l, rfl, rfl, .inl hy⟩
      · rintro ⟨before, after, heq, hnone, -⟩
        cases before with
        | nil =>
          cases heq
          rfl
        | cons y' before =>
          cases heq
          simp [firstRepeat?, hy] at hnone
    · rename_i hy
      rw [ih]
      constructor
      · rintro ⟨before, after, rfl, hnone, hx⟩
        refine ⟨y :: before, after, rfl, ?_, ?_⟩
        · rwa [firstRepeat?, if_neg hy]
        · grind
      · rintro ⟨before, after, heq, hnone, hx⟩
        cases before with
        | nil =>
          cases heq
          exact absurd hx (by simpa using hy)
        | cons y' before =>
          cases heq
          rw [firstRepeat?, if_neg hy] at hnone
          exact ⟨before, after, rfl, hnone, by grind⟩

theorem firstRepeat_iff {l : List String} {x : String} :
    firstRepeat? [] l = some x ↔ FirstRepeat x l := by
  simp [firstRepeat?_eq_some_iff, firstRepeat?_eq_none_iff, FirstRepeat]

theorem nodup_iff_firstRepeat? {l : List String} : firstRepeat? [] l = none ↔ l.Nodup := by
  simp [firstRepeat?_eq_none_iff]

/-! ## Declaring -/

namespace License

variable {l : License} {values : Parameters} {f : Fault}

theorem declare_eq_error_iff {id name url template : String} {sourceRequired : Bool}
    {expected : List String} :
    declare id name url sourceRequired template expected = .error f ↔
      ∃ x, FirstRepeat x expected ∧ f = .duplicateParameter id x := by
  simp only [← firstRepeat_iff, declare]
  cases firstRepeat? [] expected <;> simp [eq_comm]

theorem declare_eq_ok_iff {id name url template : String} {sourceRequired : Bool}
    {expected : List String} :
    declare id name url sourceRequired template expected = .ok l ↔
      expected.Nodup ∧ l = ⟨id, name, url, sourceRequired, template, .ofList expected⟩ := by
  rw [← nodup_iff_firstRepeat?, declare]
  cases firstRepeat? [] expected <;> simp [eq_comm]

/-! ## Comparing -/

/-- The names that are missing and the ones that are unexpected, of which there are some. -/
structure Mismatch (l : License) (supplied missing unexpected : List String) : Prop where
  differ : missing ≠ [] ∨ unexpected ≠ []
  mem_missing : ∀ name, name ∈ missing ↔ name ∈ l.expected ∧ name ∉ supplied
  mem_unexpected : ∀ name, name ∈ unexpected ↔ name ∈ supplied ∧ name ∉ l.expected
  missing_ascending : missing.Pairwise (· < ·)
  unexpected_ascending : unexpected.Pairwise (· < ·)

/-- There is one way to tell two lists of names apart. -/
theorem Mismatch.unique {supplied missing unexpected missing' unexpected' : List String}
    (h : l.Mismatch supplied missing unexpected) (h' : l.Mismatch supplied missing' unexpected') :
    missing = missing' ∧ unexpected = unexpected' :=
  ⟨h.missing_ascending.eq_of_mem_iff h'.missing_ascending fun name =>
      (h.mem_missing name).trans (h'.mem_missing name).symm,
    h.unexpected_ascending.eq_of_mem_iff h'.unexpected_ascending fun name =>
      (h.mem_unexpected name).trans (h'.mem_unexpected name).symm⟩

theorem Mismatch.of_mem_iff {supplied supplied' missing unexpected : List String}
    (hmem : ∀ name, name ∈ supplied ↔ name ∈ supplied')
    (h : l.Mismatch supplied missing unexpected) : l.Mismatch supplied' missing unexpected where
  differ := h.differ
  mem_missing name := by rw [← hmem, h.mem_missing]
  mem_unexpected name := by rw [← hmem, h.mem_unexpected]
  missing_ascending := h.missing_ascending
  unexpected_ascending := h.unexpected_ascending

/-- Which names were supplied is all that counts. -/
theorem mismatch_congr {supplied supplied' missing unexpected : List String}
    (hmem : ∀ name, name ∈ supplied ↔ name ∈ supplied') :
    l.Mismatch supplied missing unexpected ↔ l.Mismatch supplied' missing unexpected :=
  ⟨.of_mem_iff hmem, .of_mem_iff fun name => (hmem name).symm⟩

theorem ascending_keys {ν : Type} (t : Table ν) : t.keys.Pairwise (· < ·) := by
  refine List.pairwise_map.mpr ?_
  exact t.ascending.imp fun hlt => compareOfLessAndEq_eq_lt.mp hlt

theorem ascending_names (s : NameSet) : s.toList.Pairwise (· < ·) :=
  s.ascending.imp fun hlt => compareOfLessAndEq_eq_lt.mp hlt

theorem mem_missing {name : String} :
    name ∈ l.missing values ↔ name ∈ l.expected ∧ name ∉ values.keys := by
  rw [missing, List.mem_filter, Bool.not_eq_true', ← Table.get?_isSome, Table.get?,
    Option.isSome_map, Bool.not_eq_true]
  exact Iff.rfl

theorem mem_unexpected {name : String} :
    name ∈ l.unexpected values ↔ name ∈ values.keys ∧ name ∉ l.expected := by
  rw [unexpected, List.mem_filter, Bool.not_eq_true', NameSet.contains_eq_false_iff]

theorem mismatch_of_not_accepts (h : ¬l.Accepts values) :
    l.Mismatch values.keys (l.missing values) (l.unexpected values) where
  differ := by
    rw [Accepts, not_and_or] at h
    exact h
  mem_missing _ := mem_missing
  mem_unexpected _ := mem_unexpected
  missing_ascending := (ascending_names l.expected).filter _
  unexpected_ascending := (ascending_keys values).filter _

theorem accepts_iff_keys : l.Accepts values ↔ ∀ name, name ∈ l.expected ↔ name ∈ values.keys := by
  simp only [accepts_iff, Table.get?_isSome, iff_comm]

theorem Mismatch.not_accepts {missing unexpected : List String}
    (h : l.Mismatch values.keys missing unexpected) : ¬l.Accepts values := by
  rw [accepts_iff_keys]
  intro haccepts
  rcases h.differ with hdiffer | hdiffer
  · obtain ⟨name, hname⟩ := List.exists_mem_of_ne_nil missing hdiffer
    obtain ⟨hexpected, hnot⟩ := (h.mem_missing name).mp hname
    exact hnot ((haccepts name).mp hexpected)
  · obtain ⟨name, hname⟩ := List.exists_mem_of_ne_nil unexpected hdiffer
    obtain ⟨hsupplied, hnot⟩ := (h.mem_unexpected name).mp hname
    exact hnot ((haccepts name).mpr hsupplied)

/-- Parameters are refused with what tells them from the ones expected. -/
theorem checkParameters_eq_error_iff :
    l.checkParameters values = .error f ↔ ∃ missing unexpected,
      l.Mismatch values.keys missing unexpected ∧
        f = .parameterMismatch l.id missing unexpected := by
  rw [checkParameters]
  split
  · rename_i haccepts
    simp only [reduceCtorEq, false_iff]
    rintro ⟨missing, unexpected, hmismatch, -⟩
    exact hmismatch.not_accepts haccepts
  · rename_i haccepts
    have hmismatch := mismatch_of_not_accepts haccepts
    constructor
    · rintro ⟨⟩
      exact ⟨_, _, hmismatch, rfl⟩
    · rintro ⟨missing, unexpected, h, rfl⟩
      obtain ⟨rfl, rfl⟩ := hmismatch.unique h
      rfl

end License

/-! ## Granting -/

namespace Grant

variable {l : License} {notice : Option String} {supplied : List (String × String)}
  {holdings : List Holding} {f : Fault} {g : Grant}

theorem mem_keys_ofList {name : String} :
    name ∈ Table.keys (SortedBy.ofList supplied : Parameters) ↔ name ∈ supplied.map (·.1) := by
  rw [← Table.get?_isSome, Table.get?, Option.isSome_map, List.mem_map]
  exact SortedBy.contains_ofList

/-- Past the repeats a grant is refused as the license refuses the parameters. -/
theorem make_eq_error_iff_of_nodup (h : (supplied.map (·.1)).Nodup) :
    make l notice supplied holdings = .error f ↔
      l.checkParameters (.ofList supplied) = .error f := by
  simp only [make, nodup_iff_firstRepeat?.mpr h, checkParameters]
  split <;> simp

theorem make_eq_error_iff :
    make l notice supplied holdings = .error f ↔
      (∃ x, FirstRepeat x (supplied.map (·.1)) ∧ f = .duplicateParameter l.id x) ∨
      (supplied.map (·.1)).Nodup ∧ ∃ missing unexpected,
        l.Mismatch (supplied.map (·.1)) missing unexpected ∧
          f = .parameterMismatch l.id missing unexpected := by
  cases hrepeat : firstRepeat? [] (supplied.map (·.1)) with
  | some x =>
    have hnot : ¬(supplied.map (·.1)).Nodup := by
      rw [← nodup_iff_firstRepeat?, hrepeat]
      simp
    simp [make, ← firstRepeat_iff, hrepeat, hnot, eq_comm]
  | none =>
    have hnodup := nodup_iff_firstRepeat?.mp hrepeat
    rw [make_eq_error_iff_of_nodup hnodup, checkParameters_eq_error_iff]
    simp only [← firstRepeat_iff, hrepeat, hnodup, true_and, reduceCtorEq, false_and, exists_false,
      false_or, mismatch_congr fun _ => mem_keys_ofList]

theorem make_eq_ok_iff :
    make l notice supplied holdings = .ok g ↔
      (supplied.map (·.1)).Nodup ∧ (∀ name, name ∈ l.expected ↔ name ∈ supplied.map (·.1)) ∧
        g.license = l ∧ g.copyrightNotice = notice ∧ g.parameters = .ofList supplied ∧
        g.holdings = .ofList holdings := by
  have haccepts : l.Accepts (.ofList supplied) ↔
      ∀ name, name ∈ l.expected ↔ name ∈ supplied.map (·.1) := by
    simp only [accepts_iff_keys, mem_keys_ofList]
  rw [← haccepts, ← nodup_iff_firstRepeat?, make]
  cases firstRepeat? [] (supplied.map (·.1)) with
  | some x => simp
  | none =>
    by_cases h : l.Accepts (.ofList supplied)
    · obtain ⟨license, notice', parameters, holdings', accepted⟩ := g
      simp only [h, dite_true]
      constructor
      · rintro ⟨⟩
        exact ⟨trivial, trivial, rfl, rfl, rfl, rfl⟩
      · rintro ⟨-, -, rfl, rfl, rfl, rfl⟩
        rfl
    · simp [h]

/-- The text of a grant needs no check beyond the one that the grant was made with, and no cut that
is made for it fails. -/
theorem exists_text (g : Grant) : ∃ text, g.text = .ok (String.ofList text) ∧
    renderAt? g.parameters g.license.template.toList = some text :=
  ⟨_, text_eq (checkParameters_eq_ok_iff.mpr g.accepted), renderAt?_eq _ _⟩

/-- Parameters are refused for the first that repeats an earlier one, or else for their differences
from the ones expected, and only for these. A grant that is made has its text, and so has every
grant of a descriptor, whose sections are the ones that were added. -/
theorem checks_parameters :
    (∀ id name url sourceRequired template expected,
      (∀ f, declare id name url sourceRequired template expected = .error f ↔
        ∃ x, FirstRepeat x expected ∧ f = .duplicateParameter id x) ∧
      ∀ l, declare id name url sourceRequired template expected = .ok l ↔
        expected.Nodup ∧ l = ⟨id, name, url, sourceRequired, template, .ofList expected⟩) ∧
    (∀ l notice supplied holdings,
      (∀ f, make l notice supplied holdings = .error f ↔
        (∃ x, FirstRepeat x (supplied.map (·.1)) ∧ f = .duplicateParameter l.id x) ∨
        (supplied.map (·.1)).Nodup ∧ ∃ missing unexpected,
          l.Mismatch (supplied.map (·.1)) missing unexpected ∧
            f = .parameterMismatch l.id missing unexpected) ∧
      (∀ g, make l notice supplied holdings = .ok g ↔
        (supplied.map (·.1)).Nodup ∧ (∀ name, name ∈ l.expected ↔ name ∈ supplied.map (·.1)) ∧
          g.license = l ∧ g.copyrightNotice = notice ∧ g.parameters = .ofList supplied ∧
          g.holdings = .ofList holdings) ∧
      ∀ g, make l notice supplied holdings = .ok g →
        ∃ text, g.text = .ok (String.ofList text) ∧
          renderAt? (.ofList supplied) l.template.toList = some text) ∧
    ∀ cs license organisation d, (Drafting.draftOf cs).finish license organisation = .ok d →
      ∀ s ∈ d.sections, .addSection s ∈ cs ∧ ∀ g ∈ s.grants,
        make g.license g.copyrightNotice g.parameters.toList g.holdings.toList = .ok g ∧
          ∃ text, g.text = .ok (String.ofList text) ∧
            renderAt? g.parameters g.license.template.toList = some text := by
  refine ⟨fun id name url sourceRequired template expected =>
    ⟨fun f => declare_eq_error_iff, fun l => declare_eq_ok_iff⟩, ?_, ?_⟩
  · intro l notice supplied holdings
    refine ⟨fun f => make_eq_error_iff, fun g => make_eq_ok_iff, ?_⟩
    intro g hg
    obtain ⟨-, -, rfl, -, hparameters, -⟩ := make_eq_ok_iff.mp hg
    rw [← hparameters]
    exact g.exists_text
  · intro cs license organisation d hfinish s hs
    obtain ⟨_, _, -, -, rfl⟩ := Draft.finish_eq_ok_iff.mp hfinish
    obtain ⟨before, after, rfl, -⟩ := Drafting.mem_sections_draftOf.mp hs
    refine ⟨List.mem_append_right _ List.mem_cons_self, fun g _ => ⟨?_, g.exists_text⟩⟩
    have hmake := g.make_supply
    rwa [supply, SuppliedGrant.make, make_supply_holdings] at hmake

/-- The terms, filled. -/
def filled : Grant := ⟨terms, none, termValues "y", default, by decide⟩

def filledIn : List Drafting.Call := [.addLicense terms, .addSection ⟨"a", [filled], default⟩]

/-- Of two repeats the first is reported, and differences only where nothing repeats. -/
theorem checks_parameters_terms :
    make terms none [("c", ""), ("a", ""), ("a", ""), ("c", "")] [] =
        .error (.duplicateParameter "T" "a") ∧
      terms.Mismatch ["d", "c", "a"] ["b"] ["c", "d"] ∧
      ∃ d, (Drafting.draftOf filledIn).finish "T" none = .ok d ∧
        ∃ s ∈ d.sections, filled ∈ s.grants ∧ ∃ text, filled.text = .ok (String.ofList text) := by
  obtain ⟨-, hmake, hbuilt⟩ := checks_parameters
  refine ⟨?_, ?_, ?_⟩
  · have hfirst : FirstRepeat "a" ["c", "a", "a", "c"] :=
      ⟨["c", "a"], ["c"], rfl, by decide, by decide⟩
    exact ((hmake _ _ _ _).1 _).mpr (.inl ⟨"a", hfirst, rfl⟩)
  · have hrefused : make terms none [("d", ""), ("c", ""), ("a", "")] [] =
        .error (.parameterMismatch "T" ["b"] ["c", "d"]) := rfl
    rcases ((hmake _ _ _ _).1 _).mp hrefused with ⟨x, -, hx⟩ | ⟨-, missing, unexpected, h, heq⟩
    · cases hx
    · cases heq
      exact h
  · have hmem : (⟨"a", [filled], default⟩ : Section) ∈ (Drafting.draftOf filledIn).sections :=
      List.mem_of_elem_eq_true rfl
    obtain ⟨d, hd⟩ : ∃ d, (Drafting.draftOf filledIn).finish "T" none = .ok d := ⟨_, rfl⟩
    obtain ⟨_, _, -, -, heq⟩ := Draft.finish_eq_ok_iff.mp hd
    have hsections : d.sections = (Drafting.draftOf filledIn).sections := by rw [heq]
    rw [← hsections] at hmem
    obtain ⟨-, htexts⟩ := hbuilt _ _ _ _ hd _ hmem
    obtain ⟨-, text, htext, -⟩ := htexts filled List.mem_cons_self
    exact ⟨d, hd, _, hmem, List.mem_cons_self, text, htext⟩

end Grant

end LicenseAudit
