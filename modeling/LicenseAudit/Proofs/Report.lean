import LicenseAudit.Proofs.Ordered.Insertion
import LicenseAudit.Report.Basic

/-!
# What is in a report

What is reported under a kind afterwards is what was reported before and what was added under it;
the other kinds are left alone. A report is valid exactly if nothing is reported under any kind.
-/

set_option autoImplicit false

namespace LicenseAudit

namespace Report

theorem get_extend {r : Report} {k j : IssueKind} {ls : List Location} :
    (r.extend k ls).get j = if j = k then (r.get k).insertAll ls else r.get j := by
  unfold extend
  rw [get, bucket?_setBucket]
  split
  · rfl
  · rfl

theorem mem_get_extend {r : Report} {k j : IssueKind} {ls : List Location} {l : Location} :
    l ∈ (r.extend k ls).get j ↔ l ∈ r.get j ∨ j = k ∧ l ∈ ls := by
  rw [get_extend]
  by_cases h : j = k
  · rw [if_pos h, Locations.mem_insertAll, h]
    simp
  · rw [if_neg h]
    simp [h]

theorem not_mem_get_fresh {k : IssueKind} {l : Location} : l ∉ fresh.get k := by
  cases k <;> exact SortedBy.not_mem_empty

/-- What each step makes true, and nothing undoes, is true after some of them if it was before or
one of them makes it so. -/
theorem foldl_iff {α : Type} {add : Report → α → Report} {Q : Report → Prop} {P : α → Prop}
    (h : ∀ r a, Q (add r a) ↔ Q r ∨ P a) {as : List α} {r : Report} :
    Q (as.foldl add r) ↔ Q r ∨ ∃ a ∈ as, P a := by
  induction as generalizing r with
  | nil => simp
  | cons a as ih =>
    rw [List.foldl_cons, ih, h]
    simp only [List.mem_cons, or_and_right, exists_or, exists_eq_left, or_assoc]

/-- Reporting in turn adds what each part adds. -/
theorem mem_get_foldl {α : Type} {add : Report → α → Report} {k : IssueKind} {l : Location}
    {P : α → Prop} (h : ∀ r a, l ∈ (add r a).get k ↔ l ∈ r.get k ∨ P a) {as : List α} {r : Report} :
    l ∈ (as.foldl add r).get k ↔ l ∈ r.get k ∨ ∃ a ∈ as, P a :=
  foldl_iff (Q := fun r => l ∈ r.get k) h

/-- The report has a bucket for each kind. -/
def Full (r : Report) : Prop := ∀ k, r.bucket? k = some (r.get k)

theorem full_fresh : fresh.Full := fun k => by cases k <;> rfl

theorem Full.extend {r : Report} (h : r.Full) (k : IssueKind) (ls : List Location) :
    (r.extend k ls).Full := by
  intro j
  rw [get_extend]
  unfold Report.extend
  rw [bucket?_setBucket]
  split
  · rfl
  · exact h j

theorem Full.foldl {α : Type} {add : Report → α → Report} (h : ∀ r a, r.Full → (add r a).Full)
    (as : List α) {r : Report} (hr : r.Full) : (as.foldl add r).Full := by
  induction as generalizing r with
  | nil => exact hr
  | cons a as ih => exact ih (h r a hr)

theorem isEmpty_iff {ls : Locations} : ls.isEmpty = true ↔ ∀ l, l ∉ ls := by
  unfold SortedBy.isEmpty
  rw [List.isEmpty_iff, List.eq_nil_iff_forall_not_mem]
  exact Iff.rfl

/-- A report is valid exactly if nothing is reported. -/
theorem isValid_iff {r : Report} : r.isValid = true ↔ ∀ k l, l ∉ r.get k := by
  unfold isValid buckets
  rw [List.all_eq_true]
  constructor
  · intro h k l
    unfold get
    cases hb : r.bucket? k with
    | none => exact SortedBy.not_mem_empty
    | some ls =>
      have hmem : (k, ls) ∈ IssueKind.all.filterMap fun k => (r.bucket? k).map (k, ·) :=
        List.mem_filterMap.mpr ⟨k, IssueKind.mem_all k, by rw [hb]; rfl⟩
      exact isEmpty_iff.mp (h _ hmem) l
  · intro h b hb
    obtain ⟨k, -, hk⟩ := List.mem_filterMap.mp hb
    obtain ⟨ls, hls, rfl⟩ := Option.map_eq_some_iff.mp hk
    apply isEmpty_iff.mpr
    intro l hl
    apply h k l
    rw [get, hls]
    exact hl

end Report

end LicenseAudit
