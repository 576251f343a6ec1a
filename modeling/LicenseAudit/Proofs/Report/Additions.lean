import Mathlib.Algebra.Ring.Nat
import Mathlib.Data.List.TFAE
import Mathlib.Tactic.TFAE
import LicenseAudit.Proofs.Report

/-!
# Adding to a report

Locations are added to a report one at a time or several at once. What is reported afterwards
depends on which locations were added under which kind, and on nothing else (`get_after_congr`): a
bucket is a set, so neither the order of the calls nor their batches can be told from it.

The other ways to look at a report, its size, its text, the buckets with something in them, read the
buckets that exist. That each of them can be told from `Report.get`, which takes an absent bucket
for an empty one, is proved once for each; so there is one notion of an empty report, whichever way
it is asked for (`tfae_empty`).
-/

set_option autoImplicit false

namespace LicenseAudit

/-- By directory, then by resource. -/
def Location.Before (l m : Location) : Prop :=
  l.directory < m.directory ∨ l.directory = m.directory ∧ l.resource < m.resource

theorem Location.before_of_compare {l m : Location} (h : compare l.key m.key = .lt) :
    l.Before m := by
  unfold key at h
  rw [List.compare_cons_cons, List.compare_cons_cons, Ordering.then_eq_lt,
    Ordering.then_eq_lt] at h
  rcases h with hdirectory | ⟨hdirectory, hresource | ⟨-, hnil⟩⟩
  · exact .inl (compareOfLessAndEq_eq_lt.mp hdirectory)
  · exact .inr ⟨Std.LawfulEqCmp.compare_eq_iff_eq.mp hdirectory,
      compareOfLessAndEq_eq_lt.mp hresource⟩
  · cases hnil

theorem Locations.pairwise_before (ls : Locations) : ls.toList.Pairwise Location.Before :=
  ls.ascending.imp Location.before_of_compare

theorem IssueKind.all_ascending : all.Pairwise fun j k => j.rank < k.rank := by decide

namespace Report

/-- A call that adds to a report. -/
inductive Addition where
  /-- One location under a kind. -/
  | one (k : IssueKind) (l : Location)
  /-- Several locations under a kind, or none. -/
  | several (k : IssueKind) (ls : List Location)

namespace Addition

def kind : Addition → IssueKind
  | one k _ => k
  | several k _ => k

def locations : Addition → List Location
  | one _ l => [l]
  | several _ ls => ls

end Addition

def perform (r : Report) : Addition → Report
  | .one k l => r.add k l
  | .several k ls => r.extend k ls

/-- The report after some additions. -/
def after (r : Report) (as : List Addition) : Report := as.foldl perform r

/-- What is added, each location with its kind, however the calls batch it. -/
def added (as : List Addition) : List (IssueKind × Location) :=
  as.flatMap fun a => a.locations.map (a.kind, ·)

theorem perform_eq (r : Report) (a : Addition) : r.perform a = r.extend a.kind a.locations := by
  cases a <;> rfl

/-! ## What is reported afterwards -/

theorem mem_get_perform {r : Report} {a : Addition} {k : IssueKind} {l : Location} :
    l ∈ (r.perform a).get k ↔ l ∈ r.get k ∨ a.kind = k ∧ l ∈ a.locations := by
  rw [perform_eq, mem_get_extend, eq_comm]

theorem mem_added {as : List Addition} {k : IssueKind} {l : Location} :
    (k, l) ∈ added as ↔ ∃ a ∈ as, a.kind = k ∧ l ∈ a.locations := by
  simp only [added, List.mem_flatMap, List.mem_map, Prod.mk.injEq]
  refine exists_congr fun a => and_congr_right fun _ => ?_
  constructor
  · intro h
    obtain ⟨m, hm, hk, rfl⟩ := h
    exact ⟨hk, hm⟩
  · intro h
    exact ⟨l, h.2, h.1, rfl⟩

theorem mem_get_after {r : Report} {as : List Addition} {k : IssueKind} {l : Location} :
    l ∈ (r.after as).get k ↔ l ∈ r.get k ∨ (k, l) ∈ added as := by
  have hstep : ∀ (r : Report) (a : Addition),
      l ∈ (r.perform a).get k ↔ l ∈ r.get k ∨ (a.kind = k ∧ l ∈ a.locations) :=
    fun _ _ => mem_get_perform
  rw [mem_added]
  exact mem_get_foldl hstep

/-- Calls that add the same locations under the same kinds leave the same reported. -/
theorem get_after_congr {as bs : List Addition} (h : ∀ e, e ∈ added as ↔ e ∈ added bs) (r : Report)
    (k : IssueKind) : (r.after as).get k = (r.after bs).get k := by
  apply SortedBy.ext_mem
  intro l
  rw [mem_get_after, mem_get_after, h]

/-! ## What is told from the buckets -/

theorem get_of_absent {r : Report} {k : IssueKind} (h : r.bucket? k = none) : r.get k = ∅ := by
  rw [get, h]
  rfl

theorem get_of_bucket {r : Report} {k : IssueKind} {ls : Locations} (h : r.bucket? k = some ls) :
    r.get k = ls := by
  rw [get, h]
  rfl

/-- A bucket that is absent and one that is empty count alike. -/
theorem sum_sizes (r : Report) (ks : List IssueKind) :
    ((ks.filterMap fun k => (r.bucket? k).map (k, ·)).map fun b => b.2.size).sum =
      (ks.map fun k => (r.get k).size).sum := by
  induction ks with
  | nil => rfl
  | cons k ks ih =>
    rw [List.map_cons, List.sum_cons, ← ih]
    cases hk : r.bucket? k with
    | none =>
      rw [List.filterMap_cons_none (by rw [hk]; rfl), get_of_absent hk]
      exact (Nat.zero_add _).symm
    | some ls =>
      rw [List.filterMap_cons_some (by rw [hk]; rfl), get_of_bucket hk]
      rfl

theorem size_eq (r : Report) : r.size = (IssueKind.all.map fun k => (r.get k).size).sum := by
  rw [← sum_sizes, List.sum_eq_foldl, List.foldl_map]
  rfl

theorem nonempty_eq (r : Report) :
    r.nonempty = (IssueKind.all.filter fun k => !(r.get k).isEmpty).map fun k => (k, r.get k) := by
  unfold nonempty buckets
  rw [List.filter_filterMap, ← List.filterMap_eq_filter, List.map_filterMap]
  apply List.filterMap_congr
  intro k _
  -- a kind without a bucket is passed over on both sides
  cases hk : r.bucket? k with
  | none =>
    have hempty : (r.get k).isEmpty = true := by
      rw [get_of_absent hk]
      rfl
    simp [Option.guard, hempty]
  | some ls => simp [Option.guard, Option.filter, get_of_bucket hk]

theorem nonempty_ascending (r : Report) : r.nonempty.Pairwise fun b c => b.1.rank < c.1.rank := by
  rw [nonempty_eq, List.pairwise_map]
  exact IssueKind.all_ascending.filter _

/-! ## When nothing is reported -/

theorem isValid_iff_isEmpty_get {r : Report} :
    r.isValid = true ↔ ∀ k, (r.get k).isEmpty = true := by
  rw [isValid_iff]
  exact forall_congr' fun k => isEmpty_iff.symm

theorem forall_mem_all {P : IssueKind → Prop} : (∀ k ∈ IssueKind.all, P k) ↔ ∀ k, P k :=
  forall_congr' fun k => imp_iff_right k.mem_all

theorem size_eq_zero_iff {r : Report} : r.size = 0 ↔ ∀ k, (r.get k).isEmpty = true := by
  rw [size_eq, List.sum_eq_zero_iff_forall_eq_nat, List.forall_mem_map, forall_mem_all]
  refine forall_congr' fun k => ?_
  exact List.length_eq_zero_iff.trans List.isEmpty_iff.symm

theorem nonempty_eq_nil_iff {r : Report} : r.nonempty = [] ↔ ∀ k, (r.get k).isEmpty = true := by
  rw [nonempty_eq, List.map_eq_nil_iff, List.filter_eq_nil_iff, forall_mem_all]
  simp

theorem bucketText_ne_empty (b : IssueKind × Locations) : bucketText b ≠ "" := by
  intro h
  obtain ⟨hheading, -⟩ := String.append_eq_empty_iff.mp h
  obtain ⟨-, hcolon⟩ := String.append_eq_empty_iff.mp hheading
  exact absurd hcolon (by decide)

theorem text_eq_empty_iff {r : Report} : r.text = "" ↔ r.nonempty = [] := by
  unfold text
  cases r.nonempty with
  | nil => simp
  | cons b bs =>
    rw [List.map_cons, String.join_cons, String.append_eq_empty_iff]
    simp [bucketText_ne_empty b]

/-- The five ways to ask whether nothing is reported agree. -/
theorem tfae_empty (r : Report) :
    [r.isValid = true, r.isEmpty = true, r.size = 0, r.nonempty = [], r.text = ""].TFAE := by
  tfae_have 1 ↔ 2 := Iff.rfl
  tfae_have 1 ↔ 3 := isValid_iff_isEmpty_get.trans size_eq_zero_iff.symm
  tfae_have 1 ↔ 4 := isValid_iff_isEmpty_get.trans nonempty_eq_nil_iff.symm
  tfae_have 5 ↔ 4 := text_eq_empty_iff
  tfae_finish

/-- However a report came about, additions leave under each kind what was there and what they add,
in order and without repeats, whichever way they are ordered and batched. Its size and its buckets
with something in them are those of what is reported, and it is empty by any of its measures if it
is by one. -/
theorem additions_gather (r : Report) (as : List Addition) :
    (∀ k l, l ∈ (r.after as).get k ↔ l ∈ r.get k ∨ (k, l) ∈ added as) ∧
      (∀ k, ((r.after as).get k).toList.Pairwise Location.Before) ∧
      (∀ bs, (∀ e, e ∈ added bs ↔ e ∈ added as) → ∀ k, (r.after bs).get k = (r.after as).get k) ∧
      (r.after as).size = (IssueKind.all.map fun k => ((r.after as).get k).size).sum ∧
      (r.after as).nonempty = (IssueKind.all.filter fun k => !((r.after as).get k).isEmpty).map
        (fun k => (k, (r.after as).get k)) ∧
      (r.after as).nonempty.Pairwise (fun b c => b.1.rank < c.1.rank) ∧
      [(r.after as).isValid = true, (r.after as).isEmpty = true, (r.after as).size = 0,
        (r.after as).nonempty = [], (r.after as).text = ""].TFAE := by
  refine ⟨fun k l => mem_get_after, fun k => ((r.after as).get k).pairwise_before, ?_, size_eq _,
    nonempty_eq _, nonempty_ascending _, tfae_empty _⟩
  intro bs h k
  exact get_after_congr h r k

/-- A report with a single bucket, as it is read from a text that names one kind. -/
def duplicatesOnly : Report := { bare with duplicate := some (.ofList [⟨"b", "x"⟩]) }

def batched : List Addition :=
  [.several .missingLicense [⟨"b", "x"⟩, ⟨"a", "y"⟩], .one .duplicate ⟨"a", "z"⟩]

/-- The same locations in another order, each by itself, one of them twice. -/
def singly : List Addition :=
  [.one .duplicate ⟨"a", "z"⟩, .several .extraLicense [], .one .missingLicense ⟨"a", "y"⟩,
    .one .missingLicense ⟨"b", "x"⟩, .one .duplicate ⟨"a", "z"⟩]

theorem additions_gather_singly :
    (∀ e, e ∈ added singly ↔ e ∈ added batched) ∧
      (∀ k, (duplicatesOnly.after singly).get k = (duplicatesOnly.after batched).get k) ∧
      (duplicatesOnly.after singly).size = 4 := by
  have hto : ∀ e ∈ added singly, e ∈ added batched := by decide
  have hfrom : ∀ e ∈ added batched, e ∈ added singly := by decide
  have hsame : ∀ e, e ∈ added singly ↔ e ∈ added batched := fun e => ⟨hto e, hfrom e⟩
  refine ⟨hsame, (additions_gather duplicatesOnly batched).2.2.1 singly hsame, ?_⟩
  decide +kernel

end Report

end LicenseAudit
