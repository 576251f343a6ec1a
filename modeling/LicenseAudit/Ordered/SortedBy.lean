/-!
# Values kept in strictly ascending order of a key

A `SortedBy key` is a finite collection in which the key *is* the identity: no two values share
one, and the values stand in ascending order of it. It serves as a set (the key is the value
itself), as a table (the key is the first of a pair) and as a register of things that are known
by an id alone.

There are two ways to add a value, and they differ only when its key is taken already:
`insertNew` keeps the value that is there, `put` replaces it. `mem_insertNew` and `mem_put` say
exactly this, `find?_eq_some_iff` says what a lookup finds, and `ext_mem` says that two
collections with the same values are equal.
-/

set_option autoImplicit false

namespace LicenseAudit

open Std

variable {α κ : Type} [Ord κ]

/-- Values in strictly ascending order of their key. -/
structure SortedBy (key : α → κ) where
  toList : List α
  /-- Each value's key is below the key of every later one. -/
  ascending : toList.Pairwise (fun a b => compare (key a) (key b) = .lt)

namespace SortedBy

variable {key : α → κ}

theorem ext_toList {s t : SortedBy key} (h : s.toList = t.toList) : s = t := by
  cases s; cases t; cases h; rfl

instance [DecidableEq α] : DecidableEq (SortedBy key) := fun s t =>
  decidable_of_iff (s.toList = t.toList) ⟨ext_toList, fun h => h ▸ rfl⟩

instance : Membership α (SortedBy key) := ⟨fun s a => a ∈ s.toList⟩

theorem mem_iff_mem_toList {s : SortedBy key} {a : α} : a ∈ s ↔ a ∈ s.toList := Iff.rfl

instance [DecidableEq α] (a : α) (s : SortedBy key) : Decidable (a ∈ s) :=
  inferInstanceAs (Decidable (a ∈ s.toList))

def empty : SortedBy key := ⟨[], List.Pairwise.nil⟩

instance : EmptyCollection (SortedBy key) := ⟨empty⟩

instance : Inhabited (SortedBy key) := ⟨empty⟩

def size (s : SortedBy key) : Nat := s.toList.length

def isEmpty (s : SortedBy key) : Bool := s.toList.isEmpty

def find? (s : SortedBy key) (k : κ) : Option α :=
  s.toList.find? fun a => (compare (key a) k).isEq

/-- Whether some value has this key. -/
def contains (s : SortedBy key) (k : κ) : Bool := (s.find? k).isSome

/-- The values that satisfy a condition. -/
def filter (s : SortedBy key) (p : α → Bool) : SortedBy key :=
  ⟨s.toList.filter p, s.ascending.filter p⟩

/-- Puts a value in its place in an ascending list. When its key is taken, `replace` says whether
the new value takes the place of the old one. -/
def place (key : α → κ) (replace : Bool) (a : α) : List α → List α
  | [] => [a]
  | b :: bs =>
    match compare (key a) (key b) with
    | .lt => a :: b :: bs
    | .eq => (if replace then a else b) :: bs
    | .gt => b :: place key replace a bs

theorem mem_of_mem_place {replace : Bool} {a x : α} {l : List α}
    (h : x ∈ place key replace a l) : x = a ∨ x ∈ l := by
  induction l with
  | nil => exact .inl (List.mem_singleton.mp h)
  | cons b bs ih =>
    unfold place at h
    split at h
    · exact List.mem_cons.mp h
    · cases replace <;> grind
    · rcases List.mem_cons.mp h with rfl | h
      · exact .inr List.mem_cons_self
      · exact (ih h).imp id (List.mem_cons_of_mem b)

theorem ascending_place [TransOrd κ] [LawfulEqOrd κ] {replace : Bool} {a : α} {l : List α}
    (h : l.Pairwise fun a b => compare (key a) (key b) = .lt) :
    (place key replace a l).Pairwise fun a b => compare (key a) (key b) = .lt := by
  induction l with
  | nil => exact List.pairwise_singleton _ a
  | cons b bs ih =>
    obtain ⟨hb, hbs⟩ := List.pairwise_cons.mp h
    unfold place
    split
    · rename_i hlt
      refine List.pairwise_cons.mpr ⟨fun x hx => ?_, h⟩
      rcases List.mem_cons.mp hx with rfl | hx
      · exact hlt
      · exact TransCmp.lt_trans hlt (hb x hx)
    · rename_i heq
      have hk : key a = key b := LawfulEqCmp.compare_eq_iff_eq.mp heq
      refine List.pairwise_cons.mpr ⟨fun x hx => ?_, hbs⟩
      cases replace
      · exact hb x hx
      · simpa [hk] using hb x hx
    · rename_i hgt
      refine List.pairwise_cons.mpr ⟨fun x hx => ?_, ih hbs⟩
      rcases mem_of_mem_place hx with rfl | hx
      · exact OrientedCmp.gt_iff_lt.mp hgt
      · exact hb x hx

theorem key_ne_of_lt [ReflOrd κ] {a b : α} (h : compare (key a) (key b) = .lt) :
    key a ≠ key b := fun he => by
  simp [he] at h

theorem isEq_compare_iff [LawfulEqOrd κ] {j k : κ} : (compare j k).isEq = true ↔ j = k := by
  rw [Ordering.isEq_iff_eq_eq]
  exact LawfulEqCmp.compare_eq_iff_eq

theorem find?_eq_some_iff [LawfulEqOrd κ] {s : SortedBy key} {k : κ} {a : α} :
    s.find? k = some a ↔ a ∈ s ∧ key a = k := by
  obtain ⟨l, h⟩ := s
  simp only [find?, mem_iff_mem_toList]
  induction l with
  | nil => simp
  | cons b bs ih =>
    obtain ⟨hb, hbs⟩ := List.pairwise_cons.mp h
    by_cases hk : key b = k
    · rw [List.find?_cons, isEq_compare_iff.mpr hk, List.mem_cons]
      refine ⟨fun he => ?_, fun ⟨hm, ha⟩ => ?_⟩
      · cases he; exact ⟨.inl rfl, hk⟩
      · rcases hm with rfl | hm
        · rfl
        · exact absurd (hk.trans ha.symm) (key_ne_of_lt (hb a hm))
    · have hbk : (compare (key b) k).isEq = false :=
        Bool.eq_false_iff.mpr fun he => hk (isEq_compare_iff.mp he)
      rw [List.find?_cons, hbk, List.mem_cons]
      refine ((ih hbs).trans ⟨fun ⟨hm, ha⟩ => ⟨.inr hm, ha⟩, fun ⟨hm, ha⟩ => ⟨?_, ha⟩⟩)
      rcases hm with rfl | hm
      · exact absurd ha hk
      · exact hm

/-- What is found under a key has it, whatever the collection was made by. -/
theorem key_of_find? [LawfulEqOrd κ] {s : SortedBy key} {k : κ} {a : α} (h : s.find? k = some a) :
    key a = k :=
  (find?_eq_some_iff.mp h).2

/-- A key is taken exactly if some value has it. -/
theorem contains_iff [LawfulEqOrd κ] {s : SortedBy key} {k : κ} :
    s.contains k = true ↔ ∃ a ∈ s, key a = k := by
  simp only [contains, Option.isSome_iff_exists, find?_eq_some_iff]

theorem not_mem_empty {a : α} : a ∉ (∅ : SortedBy key) := List.not_mem_nil

variable [TransOrd κ] [LawfulEqOrd κ]

/-- Two collections with the same values are equal. -/
theorem ext_mem {s t : SortedBy key} (h : ∀ a, a ∈ s ↔ a ∈ t) : s = t := by
  have nodup (u : SortedBy key) : u.toList.Nodup :=
    u.ascending.imp fun {a b} hlt hab => key_ne_of_lt hlt (congrArg key hab)
  refine ext_toList (List.Perm.eq_of_pairwise (fun a b _ _ hab hba => ?_) s.ascending t.ascending
    ((List.perm_ext_iff_of_nodup (nodup s) (nodup t)).mpr h))
  exact absurd rfl (key_ne_of_lt (TransCmp.lt_trans hab hba))

/-- Adds a value unless its key is taken. -/
def insertNew (s : SortedBy key) (a : α) : SortedBy key :=
  ⟨place key false a s.toList, ascending_place s.ascending⟩

/-- Adds a value in place of any other with its key. -/
def put (s : SortedBy key) (a : α) : SortedBy key :=
  ⟨place key true a s.toList, ascending_place s.ascending⟩

/-- Adds the values in turn, each unless its key is taken. -/
def insertAll (s : SortedBy key) (l : List α) : SortedBy key := l.foldl insertNew s

/-- The collection of these values; of values with one key the first is kept. -/
def ofList (l : List α) : SortedBy key := insertAll ∅ l

/-- The collection of these values; of values with one key the last is kept. -/
def ofListLast (l : List α) : SortedBy key := l.foldl put ∅

theorem mem_place {replace : Bool} {a x : α} {l : List α}
    (h : l.Pairwise fun a b => compare (key a) (key b) = .lt) :
    x ∈ place key replace a l ↔
      x = a ∧ (replace = true ∨ ∀ b ∈ l, key b ≠ key a) ∨
      x ∈ l ∧ (replace = true → key x ≠ key a) := by
  induction l with
  | nil => simp [place]
  | cons b bs ih =>
    obtain ⟨hb, hbs⟩ := List.pairwise_cons.mp h
    unfold place
    split
    · rename_i hlt
      have free : ∀ c ∈ b :: bs, key c ≠ key a := by
        intro c hc he
        rcases List.mem_cons.mp hc with rfl | hc
        · exact key_ne_of_lt hlt he.symm
        · exact key_ne_of_lt (TransCmp.lt_trans hlt (hb c hc)) he.symm
      grind
    · rename_i heq
      have hk : key a = key b := LawfulEqCmp.compare_eq_iff_eq.mp heq
      have above : ∀ c ∈ bs, key c ≠ key a := fun c hc he =>
        key_ne_of_lt (hb c hc) (hk ▸ he.symm)
      cases replace <;> grind
    · rename_i hgt
      have hne : key b ≠ key a := key_ne_of_lt (OrientedCmp.gt_iff_lt.mp hgt)
      rw [List.mem_cons, ih hbs]
      grind

/-- After `insertNew` the new value is there exactly if its key was free. -/
theorem mem_insertNew {s : SortedBy key} {a x : α} :
    x ∈ s.insertNew a ↔ x = a ∧ (∀ b ∈ s, key b ≠ key a) ∨ x ∈ s := by
  refine (mem_place s.ascending).trans ?_
  simp only [Bool.false_eq_true, false_or, false_implies, and_true]
  rfl

/-- After `put` the new value is there, and no other with its key. -/
theorem mem_put {s : SortedBy key} {a x : α} :
    x ∈ s.put a ↔ x = a ∨ x ∈ s ∧ key x ≠ key a := by
  refine (mem_place s.ascending).trans ?_
  simp only [true_or, and_true, true_implies]
  rfl

end SortedBy

/-- A set of texts, in ascending order of their code points. -/
abbrev NameSet : Type := SortedBy (fun name : String => name)

/-- A table from texts to values, in ascending order of the texts. -/
abbrev Table (ν : Type) : Type := SortedBy (fun entry : String × ν => entry.1)

namespace Table

variable {ν : Type}

/-- The value under a key. -/
def get? (t : Table ν) (k : String) : Option ν := (t.find? k).map (·.2)

/-- Sets the value under a key to a function of the one that is there. -/
def update (t : Table ν) (k : String) (f : Option ν → ν) : Table ν := t.put (k, f (t.get? k))

def keys (t : Table ν) : List String := t.toList.map (·.1)

end Table

end LicenseAudit
