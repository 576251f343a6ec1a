import Mathlib.Data.List.Dedup
import LicenseAudit.Location

/-!
# Filling a collection from a list

`SortedBy.insertAll` keeps, of several values with one key, the first (`find?_ofList`), and so as
many values as there are keys (`size_ofList`). A list whose keys are all different loses nothing on
the way into a collection, and neither does any list when the key tells values apart altogether, as
it does in sets of names and of locations.
-/

set_option autoImplicit false

namespace LicenseAudit

open Std

variable {α κ : Type} [Ord κ] {key : α → κ}

namespace SortedBy

theorem mem_iff_contains [LawfulEqOrd κ] (inj : ∀ a b, key a = key b → a = b) {s : SortedBy key}
    {a : α} : s.contains (key a) = true ↔ a ∈ s := by
  rw [contains_iff]
  constructor
  · intro h
    obtain ⟨b, hb, he⟩ := h
    exact inj b a he ▸ hb
  · intro ha
    exact ⟨a, ha, rfl⟩

/-- A collection has one value of a key. -/
theorem eq_of_key_eq [LawfulEqOrd κ] {s : SortedBy key} {a b : α} (ha : a ∈ s) (hb : b ∈ s)
    (h : key a = key b) : a = b := by
  have hfind : s.find? (key b) = some a := find?_eq_some_iff.mpr ⟨ha, h⟩
  rw [find?_eq_some_iff.mpr ⟨hb, rfl⟩] at hfind
  exact (Option.some.inj hfind).symm

theorem find?_eq_none_iff [LawfulEqOrd κ] {s : SortedBy key} {k : κ} :
    s.find? k = none ↔ ∀ a ∈ s, key a ≠ k := by
  rw [← Option.not_isSome_iff_eq_none]
  show ¬s.contains k = true ↔ _
  rw [contains_iff]
  simp only [not_exists, not_and]

theorem nodup_keys [LawfulEqOrd κ] (s : SortedBy key) : (s.toList.map key).Nodup := by
  refine List.pairwise_map.mpr ?_
  exact s.ascending.imp fun hlt => key_ne_of_lt hlt

variable [TransOrd κ] [LawfulEqOrd κ]

theorem find?_insertNew_of_find? {s : SortedBy key} {a b : α} {k : κ} (h : s.find? k = some a) :
    (s.insertNew b).find? k = some a := by
  obtain ⟨ha, hk⟩ := find?_eq_some_iff.mp h
  exact find?_eq_some_iff.mpr ⟨mem_insertNew.mpr (.inr ha), hk⟩

theorem insertAll_nil (s : SortedBy key) : s.insertAll [] = s := rfl

theorem insertAll_cons (s : SortedBy key) (a : α) (l : List α) :
    s.insertAll (a :: l) = (s.insertNew a).insertAll l := rfl

theorem insertAll_append (s : SortedBy key) (l l' : List α) :
    s.insertAll (l ++ l') = (s.insertAll l).insertAll l' :=
  List.foldl_append

/-- A key is taken after filling exactly if it was taken before or a value of the list has it. -/
theorem contains_insertAll {s : SortedBy key} {l : List α} {k : κ} :
    (s.insertAll l).contains k = true ↔ s.contains k = true ∨ k ∈ l.map key := by
  induction l generalizing s with
  | nil => simp [insertAll_nil]
  | cons a l ih =>
    have hnew : (s.insertNew a).contains k = true ↔ s.contains k = true ∨ k = key a := by
      simp only [contains_iff, mem_insertNew]
      constructor
      · intro h
        obtain ⟨b, ⟨rfl, -⟩ | hb, rfl⟩ := h
        · exact .inr rfl
        · exact .inl ⟨b, hb, rfl⟩
      · intro h
        rcases h with ⟨b, hb, hk⟩ | rfl
        · exact ⟨b, .inr hb, hk⟩
        · by_cases hfree : ∃ b ∈ s, key b = key a
          · obtain ⟨b, hb, hk⟩ := hfree
            exact ⟨b, .inr hb, hk⟩
          · exact ⟨a, .inl ⟨rfl, fun b hb hk => hfree ⟨b, hb, hk⟩⟩, rfl⟩
    rw [insertAll_cons, ih, hnew, List.map_cons, List.mem_cons, or_assoc]

theorem contains_ofList {l : List α} {k : κ} :
    (ofList l : SortedBy key).contains k = true ↔ ∃ a ∈ l, key a = k := by
  rw [ofList, contains_insertAll, List.mem_map]
  exact or_iff_right Bool.false_ne_true

/-- A list whose keys are all free, and all different, goes in as a whole. -/
theorem mem_insertAll_of_free {s : SortedBy key} {l : List α} (hd : (l.map key).Nodup)
    (hf : ∀ k ∈ l.map key, s.contains k = false) {x : α} :
    x ∈ s.insertAll l ↔ x ∈ s ∨ x ∈ l := by
  induction l generalizing s with
  | nil => simp [insertAll_nil]
  | cons a l ih =>
    rw [List.map_cons, List.nodup_cons] at hd
    have ha : ∀ b ∈ s, key b ≠ key a := by
      intro b hb hk
      have hfree := hf (key a) List.mem_cons_self
      rw [contains_iff.mpr ⟨b, hb, hk⟩] at hfree
      cases hfree
    have hl : ∀ k ∈ l.map key, (s.insertNew a).contains k = false := by
      intro k hk
      rw [Bool.eq_false_iff]
      intro hc
      have hone : (s.insertAll [a]).contains k = true := hc
      rcases contains_insertAll.mp hone with hc' | hc'
      · rw [hf k (List.mem_cons_of_mem _ hk)] at hc'
        cases hc'
      · rw [List.map_singleton, List.mem_singleton] at hc'
        exact hd.1 (hc' ▸ hk)
    rw [insertAll_cons, ih hd.2 hl, mem_insertNew, List.mem_cons]
    constructor
    · intro h
      rcases h with (⟨rfl, -⟩ | hx) | hx
      · exact .inr (.inl rfl)
      · exact .inl hx
      · exact .inr (.inr hx)
    · intro h
      rcases h with hx | rfl | hx
      · exact .inl (.inr hx)
      · exact .inl (.inl ⟨rfl, ha⟩)
      · exact .inr hx

theorem mem_ofList_of_nodup {l : List α} (hd : (l.map key).Nodup) {x : α} :
    x ∈ (ofList l : SortedBy key) ↔ x ∈ l := by
  refine (mem_insertAll_of_free hd fun k _ => rfl).trans ?_
  exact or_iff_right not_mem_empty

/-- Where the key tells values apart nothing of a list is lost. -/
theorem mem_insertAll (inj : ∀ a b, key a = key b → a = b) {s : SortedBy key} {l : List α} {x : α} :
    x ∈ s.insertAll l ↔ x ∈ s ∨ x ∈ l := by
  rw [← mem_iff_contains inj, contains_insertAll, mem_iff_contains inj, List.mem_map]
  constructor
  · intro h
    rcases h with hx | ⟨a, ha, hk⟩
    · exact .inl hx
    · exact .inr (inj a x hk ▸ ha)
  · intro h
    rcases h with hx | hx
    · exact .inl hx
    · exact .inr ⟨x, hx, rfl⟩

theorem mem_ofList (inj : ∀ a b, key a = key b → a = b) {l : List α} {x : α} :
    x ∈ (ofList l : SortedBy key) ↔ x ∈ l :=
  (mem_insertAll inj).trans (or_iff_right not_mem_empty)

section Keys

variable [DecidableEq κ]

theorem find?_insertNew {s : SortedBy key} {a : α} {k : κ} :
    (s.insertNew a).find? k = (s.find? k).or (if key a = k then some a else none) := by
  cases hs : s.find? k with
  | some b => exact find?_insertNew_of_find? hs
  | none =>
    rw [Option.none_or]
    rw [find?_eq_none_iff] at hs
    split
    · rename_i hk
      exact find?_eq_some_iff.mpr ⟨mem_insertNew.mpr (.inl ⟨rfl, fun b hb => hk ▸ hs b hb⟩), hk⟩
    · rename_i hk
      rw [find?_eq_none_iff]
      intro b hb
      rcases mem_insertNew.mp hb with ⟨rfl, -⟩ | hb
      · exact hk
      · exact hs b hb

theorem find?_insertAll {s : SortedBy key} {l : List α} {k : κ} :
    (s.insertAll l).find? k = (s.find? k).or (l.find? fun a => key a = k) := by
  induction l generalizing s with
  | nil => simp [insertAll_nil]
  | cons a l ih =>
    rw [insertAll_cons, ih, find?_insertNew, Option.or_assoc]
    by_cases hk : key a = k <;> simp [hk]

theorem find?_put {s : SortedBy key} {a : α} {k : κ} :
    (s.put a).find? k = if key a = k then some a else s.find? k := by
  by_cases hk : key a = k
  · rw [if_pos hk]
    exact find?_eq_some_iff.mpr ⟨mem_put.mpr (.inl rfl), hk⟩
  · rw [if_neg hk]
    apply Option.ext
    intro b
    rw [find?_eq_some_iff, find?_eq_some_iff, mem_put]
    constructor
    · rintro ⟨rfl | ⟨hb, -⟩, hbk⟩
      · exact absurd hbk hk
      · exact ⟨hb, hbk⟩
    · rintro ⟨hb, rfl⟩
      exact ⟨.inr ⟨hb, Ne.symm hk⟩, rfl⟩

/-- What is found under a key is the first of the list that has it. -/
theorem find?_ofList {l : List α} {k : κ} :
    (ofList l : SortedBy key).find? k = l.find? fun a => key a = k :=
  find?_insertAll

/-- A value of the list is kept exactly where no earlier one has its key. -/
theorem mem_ofList_iff_first {l : List α} {a : α} :
    a ∈ (ofList l : SortedBy key) ↔
      ∃ before after, l = before ++ a :: after ∧ ∀ b ∈ before, key b ≠ key a := by
  have hfind :
      a ∈ (ofList l : SortedBy key) ↔ (ofList l : SortedBy key).find? (key a) = some a := by
    rw [find?_eq_some_iff, and_iff_left rfl]
  rw [hfind, find?_ofList, List.find?_eq_some_iff_append]
  simp

theorem mem_of_mem_ofList {l : List α} {a : α} (h : a ∈ (ofList l : SortedBy key)) : a ∈ l := by
  obtain ⟨before, after, rfl, -⟩ := mem_ofList_iff_first.mp h
  exact List.mem_append_right _ List.mem_cons_self

/-- There are as many values as the list has keys. -/
theorem size_ofList (l : List α) : (ofList l : SortedBy key).size = (l.map key).dedup.length := by
  have hmem : ∀ k, k ∈ (ofList l : SortedBy key).toList.map key ↔ k ∈ (l.map key).dedup := by
    intro k
    rw [List.mem_map, List.mem_dedup, List.mem_map]
    exact contains_iff.symm.trans contains_ofList
  have hperm := (List.perm_ext_iff_of_nodup (nodup_keys _) (List.nodup_dedup _)).mpr hmem
  rw [size, ← List.length_map key]
  exact hperm.length_eq

/-- One value is left of a list, and it has this key, exactly if the list has values and they all
have it. -/
theorem size_ofList_eq_one_and_iff {l : List α} {k : κ} :
    (ofList l : SortedBy key).size = 1 ∧ (∀ a ∈ (ofList l : SortedBy key), key a = k) ↔
      l ≠ [] ∧ ∀ a ∈ l, key a = k := by
  have hsame : (∀ a ∈ (ofList l : SortedBy key), key a = k) ↔ ∀ a ∈ l, key a = k := by
    constructor
    · intro h a ha
      have hcontains : (ofList l : SortedBy key).contains (key a) = true :=
        contains_ofList.mpr ⟨a, ha, rfl⟩
      obtain ⟨b, hb, hk⟩ := contains_iff.mp hcontains
      exact hk ▸ h b hb
    · intro h a ha
      obtain ⟨b, hb, hk⟩ := contains_ofList.mp (contains_iff.mpr ⟨a, ha, rfl⟩)
      exact hk ▸ h b hb
  rw [hsame, and_congr_left_iff]
  intro h
  rw [size_ofList, List.map_congr_left h, List.map_const']
  cases l with
  | nil => simp
  | cons a l => simp [List.replicate_dedup]

end Keys

end SortedBy

namespace Table

variable {ν : Type} {t : Table ν} {k : String}

theorem get?_isSome : (t.get? k).isSome = true ↔ k ∈ t.keys := by
  rw [get?, Option.isSome_map]
  show t.contains k = true ↔ _
  rw [SortedBy.contains_iff, keys, List.mem_map]
  exact Iff.rfl

theorem mem_iff_get? {v : ν} : (k, v) ∈ t ↔ t.get? k = some v := by
  rw [get?, Option.map_eq_some_iff]
  constructor
  · intro h
    exact ⟨(k, v), SortedBy.find?_eq_some_iff.mpr ⟨h, rfl⟩, rfl⟩
  · rintro ⟨⟨k', v'⟩, h, rfl⟩
    obtain ⟨hmem, rfl⟩ := SortedBy.find?_eq_some_iff.mp h
    exact hmem

theorem get?_update {f : Option ν → ν} {k' : String} :
    (t.update k f).get? k' = if k = k' then some (f (t.get? k)) else t.get? k' := by
  rw [get?, update, SortedBy.find?_put]
  split <;> rfl

end Table

namespace NameSet

theorem contains_eq_true_iff {s : NameSet} {name : String} : s.contains name = true ↔ name ∈ s := by
  have inj : ∀ a b : String, (fun name : String => name) a = (fun name => name) b → a = b :=
    fun _ _ h => h
  exact SortedBy.mem_iff_contains inj

theorem contains_eq_false_iff {s : NameSet} {name : String} :
    s.contains name = false ↔ name ∉ s := by
  rw [← contains_eq_true_iff, Bool.not_eq_true]

theorem mem_insertAll {s : NameSet} {l : List String} {name : String} :
    name ∈ s.insertAll l ↔ name ∈ s ∨ name ∈ l :=
  SortedBy.mem_insertAll fun _ _ h => h

end NameSet

namespace Locations

variable {ls : Locations} {l m : Location}

theorem contains_key_iff : ls.contains l.key = true ↔ l ∈ ls :=
  SortedBy.mem_iff_contains fun _ _ h => Location.key_injective h

theorem mem_insertAll {added : List Location} : m ∈ ls.insertAll added ↔ m ∈ ls ∨ m ∈ added :=
  SortedBy.mem_insertAll fun _ _ h => Location.key_injective h

theorem mem_insertNew : m ∈ ls.insertNew l ↔ m = l ∨ m ∈ ls := by
  have h : m ∈ ls.insertAll [l] ↔ m ∈ ls ∨ m ∈ [l] := mem_insertAll
  rw [List.mem_singleton, or_comm] at h
  exact h

end Locations

end LicenseAudit
