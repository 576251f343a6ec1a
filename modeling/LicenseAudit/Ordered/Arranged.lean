/-!
# Values arranged in ascending order of a key

An `Arranged key` is a list in ascending order of a key in which, unlike in a `SortedBy`, values
with one key may repeat: a resource that is declared twice has to stay visible twice.

`Arranged.ofList` is stable. It keeps every value, and values whose keys agree keep the order in
which they were supplied.
-/

set_option autoImplicit false

namespace LicenseAudit

open Std

variable {α κ : Type} [Ord κ]

/-- A list in ascending order of a key, repeats allowed. -/
structure Arranged (key : α → κ) where
  toList : List α
  /-- No value's key is above that of a later one. -/
  ascending : toList.Pairwise (fun a b => (compare (key a) (key b)).isLE = true)

namespace Arranged

variable {key : α → κ}

theorem ext_toList {s t : Arranged key} (h : s.toList = t.toList) : s = t := by
  cases s; cases t; cases h; rfl

instance [DecidableEq α] : DecidableEq (Arranged key) := fun s t =>
  decidable_of_iff (s.toList = t.toList) ⟨ext_toList, fun h => h ▸ rfl⟩

instance : Membership α (Arranged key) := ⟨fun s a => a ∈ s.toList⟩

instance : Inhabited (Arranged key) := ⟨⟨[], List.Pairwise.nil⟩⟩

/-- The comparison that the values are arranged by. -/
def keyLE (key : α → κ) (a b : α) : Bool := (compare (key a) (key b)).isLE

theorem keyLE_trans [TransOrd κ] (a b c : α) (hab : keyLE key a b = true)
    (hbc : keyLE key b c = true) : keyLE key a c = true :=
  TransCmp.isLE_trans hab hbc

theorem keyLE_total [OrientedOrd κ] (a b : α) : (keyLE key a b || keyLE key b a) = true := by
  unfold keyLE
  rw [(OrientedCmp.eq_swap : compare (key b) (key a) = _)]
  cases compare (key a) (key b) <;> rfl

/-- Arranges values; those whose keys agree keep their order. -/
def ofList [TransOrd κ] (l : List α) : Arranged key :=
  ⟨l.mergeSort (keyLE key), List.pairwise_mergeSort keyLE_trans keyLE_total l⟩

/-- Arranging keeps every value as often as it was supplied. -/
theorem ofList_perm [TransOrd κ] (l : List α) : (ofList l : Arranged key).toList.Perm l :=
  List.mergeSort_perm l _

end Arranged

end LicenseAudit
