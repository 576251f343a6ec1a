import Mathlib.Data.List.Induction
import LicenseAudit.Proofs.Ordered.Insertion

/-!
# Values gathered under keys

A table of sets is filled by adding values to the set of a key, again and again. Afterwards it holds
under a key the values that came under it, taken one after the other in the order in which they came
(`Table.get?_gather`), so of those that the set does not tell apart it holds the first.

What a search through a table finds first, it finds at the least key where there is something to
find (`Table.findSome?_toList_eq_some_iff`).
-/

set_option autoImplicit false

namespace LicenseAudit

open Std

namespace Table

theorem findSome?_toList_eq_some_iff {ν β : Type} {t : Table ν} {f : String × ν → Option β}
    {b : β} :
    t.toList.findSome? f = some b ↔
      ∃ e ∈ t, f e = some b ∧ ∀ e' ∈ t, (f e').isSome = true → e.1 ≤ e'.1 := by
  have hleast : ∀ {c : β}, t.toList.findSome? f = some c →
      ∃ e ∈ t, f e = some c ∧ ∀ e' ∈ t, (f e').isSome = true → e.1 ≤ e'.1 := by
    intro c h
    obtain ⟨before, e, after, hsplit, hc, hnone⟩ := List.findSome?_eq_some_iff.mp h
    have hmem : ∀ e', e' ∈ t ↔ e' ∈ before ++ e :: after := by
      intro e'
      rw [SortedBy.mem_iff_mem_toList, hsplit]
    refine ⟨e, (hmem e).mpr (by simp), hc, fun e' he' hsome => ?_⟩
    have hascending := t.ascending
    rw [hsplit, List.pairwise_append, List.pairwise_cons] at hascending
    rcases List.mem_append.mp ((hmem e').mp he') with he' | he'
    · simp [hnone e' he'] at hsome
    · rcases List.mem_cons.mp he' with rfl | he'
      · exact Std.le_refl _
      · exact Std.le_of_lt (compareOfLessAndEq_eq_lt.mp (hascending.2.1.1 e' he'))
  constructor
  · exact hleast
  · rintro ⟨e, he, hb, hmin⟩
    cases hfind : t.toList.findSome? f with
    | none =>
      rw [List.findSome?_eq_none_iff.mp hfind e he] at hb
      cases hb
    | some c =>
      -- both are found at the least key
      obtain ⟨e', he', hc, hmin'⟩ := hleast hfind
      have hkey : e.1 = e'.1 :=
        Std.le_antisymm (hmin e' he' (by simp [hc])) (hmin' e he (by simp [hb]))
      rw [← hc, ← hb, SortedBy.eq_of_key_eq he he' hkey]

variable {α κ : Type}

/-- The values that come under a key. -/
def under (k : String) (es : List (String × List α)) : List α :=
  es.flatMap fun e => if e.1 = k then e.2 else []

variable [Ord κ] [TransOrd κ] [LawfulEqOrd κ] {key : α → κ}

/-- Adds values to the sets of their keys. -/
def gather (t : Table (SortedBy key)) (es : List (String × List α)) : Table (SortedBy key) :=
  es.foldl (fun t e => t.update e.1 fun s => (s.getD ∅).insertAll e.2) t

variable {es : List (String × List α)} {k : String}

theorem under_eq_nil (h : k ∉ es.map Prod.fst) : under k es = [] := by
  apply List.flatMap_eq_nil_iff.mpr
  intro e he
  rw [if_neg]
  rintro rfl
  exact h (List.mem_map_of_mem he)

/-- A table that is filled from nothing holds under a key the values that came under it. -/
theorem get?_gather :
    (gather ∅ es : Table (SortedBy key)).get? k =
      if k ∈ es.map Prod.fst then some (.ofList (under k es)) else none := by
  induction es using List.reverseRecOn with
  | nil => rfl
  | append_singleton es e ih =>
    have hset : ((gather ∅ es : Table (SortedBy key)).get? k).getD ∅ = .ofList (under k es) := by
      rw [ih]
      split
      · rfl
      · rename_i h
        rw [under_eq_nil h]
        rfl
    have hgather : (gather ∅ (es ++ [e]) : Table (SortedBy key)) =
        (gather ∅ es : Table (SortedBy key)).update e.1 fun s => (s.getD ∅).insertAll e.2 :=
      List.foldl_concat ..
    have hunder : under k (es ++ [e]) = under k es ++ if e.1 = k then e.2 else [] := by
      simp [under]
    rw [hgather, get?_update, hunder]
    by_cases hk : e.1 = k
    · subst hk
      rw [if_pos rfl, if_pos rfl, if_pos (by simp), hset]
      exact congrArg some (SortedBy.insertAll_append ∅ _ _).symm
    · have hmem : k ∈ (es ++ [e]).map Prod.fst ↔ k ∈ es.map Prod.fst := by
        simp [Ne.symm hk]
      simp only [if_neg hk, hmem, ih, List.append_nil]

theorem mem_keys_gather :
    k ∈ (gather ∅ es : Table (SortedBy key)).keys ↔ k ∈ es.map Prod.fst := by
  rw [← get?_isSome, get?_gather]
  split <;> simp [*]

theorem mem_gather {s : SortedBy key} :
    (k, s) ∈ (gather ∅ es : Table (SortedBy key)) ↔
      k ∈ es.map Prod.fst ∧ s = .ofList (under k es) := by
  rw [mem_iff_get?, get?_gather]
  split <;> simp [*, eq_comm]

end Table

end LicenseAudit
