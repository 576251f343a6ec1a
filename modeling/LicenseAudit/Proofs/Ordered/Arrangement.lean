import LicenseAudit.Ordered.Arranged
import LicenseAudit.Proofs.Ordered.Insertion

/-!
# What arranging keeps

`Arranges key supplied arranged` says that one list is another put in order, without saying how:
the same values as often, ascending, and those that tie as they were supplied. An `Arranged`
arranges what it is made of, and so does a `SortedBy` where no key repeats, without ties.
-/

set_option autoImplicit false

namespace LicenseAudit

open Std

variable {α κ : Type} [Ord κ] {key : α → κ}

/-- The second list is the first in ascending order of a key, with ties left as they were. -/
structure Arranges [DecidableEq κ] (key : α → κ) (supplied arranged : List α) : Prop where
  kept : arranged.Perm supplied
  ascending : arranged.Pairwise fun a b => (compare (key a) (key b)).isLE = true
  ties : ∀ k, arranged.filter (fun a => key a = k) = supplied.filter fun a => key a = k

namespace Arranged

variable [TransOrd κ]

theorem ofList_toList (a : Arranged key) : (ofList a.toList : Arranged key) = a :=
  ext_toList (List.mergeSort_of_pairwise a.ascending)

/-- Sorting moves a value only past values with another key. -/
theorem filter_mergeSort [DecidableEq κ] (k : κ) (l : List α) :
    (l.mergeSort (keyLE key)).filter (fun a => key a = k) = l.filter fun a => key a = k := by
  induction l with
  | nil => simp
  | cons a l ih =>
    obtain ⟨below, above, hcons, hl, hbelow⟩ :=
      @List.mergeSort_cons α (keyLE key) keyLE_trans keyLE_total a l
    rw [hl, List.filter_append] at ih
    rw [hcons, List.filter_append]
    by_cases hk : key a = k
    · -- what went before `a` does not tie with it
      have hnone : below.filter (fun b => key b = k) = [] := by
        rw [List.filter_eq_nil_iff]
        intro b hb hbk
        have hle := hbelow b hb
        rw [decide_eq_true_eq] at hbk
        simp [keyLE, hk, hbk] at hle
      rw [hnone, List.nil_append] at ih ⊢
      simp [hk, ih]
    · simpa [hk] using ih

theorem arranges_mergeSort [DecidableEq κ] (l : List α) :
    Arranges key l (l.mergeSort (keyLE key)) where
  kept := List.mergeSort_perm l _
  ascending := List.pairwise_mergeSort keyLE_trans keyLE_total l
  ties k := filter_mergeSort k l

end Arranged

namespace SortedBy

variable [LawfulEqOrd κ] [TransOrd κ]

theorem ofList_toList (s : SortedBy key) : (ofList s.toList : SortedBy key) = s :=
  ext_mem fun _ => mem_ofList_of_nodup s.nodup_keys

theorem ofList_perm {l : List α} (hl : (l.map key).Nodup) :
    (ofList l : SortedBy key).toList.Perm l := by
  apply (List.perm_ext_iff_of_nodup (.of_map key (nodup_keys _)) (.of_map key hl)).mpr
  intro a
  exact mem_ofList_of_nodup hl

end SortedBy

end LicenseAudit
