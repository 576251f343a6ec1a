import LicenseAudit.Proofs.Descriptor.Declarations
import LicenseAudit.Tally.DeclaredNames

/-!
# What the tally of declared names holds

Inside a section the tally takes one declaration after the other (`walk_section`), so what it holds
afterwards is said by an induction on the list of names: a name is declared if it is in the list,
and repeated if it was declared before or is in the list twice. Over several sections the locations
differ by their directory, so the sections do not disturb each other (`Holds.section`).
-/

set_option autoImplicit false

namespace LicenseAudit

namespace DeclaredNames

/-- Takes the resources of these names, declared in a directory. -/
def declareAll (t : DeclaredNames) (directory : String) (names : List String) : DeclaredNames :=
  names.foldl (fun t name => t.declare directory name) t

variable {t : DeclaredNames} {directory name : String}

theorem declareAll_cons (names : List String) :
    t.declareAll directory (name :: names) =
      (t.declare directory name).declareAll directory names := rfl

/-! ## One declaration -/

theorem declare_of_mem (h : (⟨directory, name⟩ : Location) ∈ t.declared) :
    t.declare directory name =
      { t with duplicates := t.duplicates.insertNew ⟨directory, name⟩ } :=
  if_pos (Locations.contains_key_iff.mpr h)

theorem declare_of_not_mem (h : (⟨directory, name⟩ : Location) ∉ t.declared) :
    t.declare directory name =
      { t with
        declared := t.declared.insertNew ⟨directory, name⟩
        names := t.names.insertNew name } :=
  if_neg fun hc => h (Locations.contains_key_iff.mp hc)

theorem misplaced_declare : (t.declare directory name).misplaced = t.misplaced := by
  by_cases h : (⟨directory, name⟩ : Location) ∈ t.declared
  · rw [declare_of_mem h]
  · rw [declare_of_not_mem h]

theorem directory_declare : (t.declare directory name).directory = t.directory := by
  by_cases h : (⟨directory, name⟩ : Location) ∈ t.declared
  · rw [declare_of_mem h]
  · rw [declare_of_not_mem h]

theorem mem_declared_declare {l : Location} :
    l ∈ (t.declare directory name).declared ↔ l ∈ t.declared ∨ l = ⟨directory, name⟩ := by
  by_cases h : (⟨directory, name⟩ : Location) ∈ t.declared
  · rw [declare_of_mem h]
    constructor
    · exact .inl
    · intro hx
      rcases hx with hl | rfl
      · exact hl
      · exact h
  · rw [declare_of_not_mem h]
    exact Locations.mem_insertNew.trans or_comm

theorem mem_duplicates_declare {l : Location} :
    l ∈ (t.declare directory name).duplicates ↔
      l ∈ t.duplicates ∨ l = ⟨directory, name⟩ ∧ l ∈ t.declared := by
  by_cases h : (⟨directory, name⟩ : Location) ∈ t.declared
  · rw [declare_of_mem h]
    refine Locations.mem_insertNew.trans ?_
    constructor
    · intro hx
      rcases hx with rfl | hl
      · exact .inr ⟨rfl, h⟩
      · exact .inl hl
    · intro hx
      rcases hx with hl | ⟨rfl, -⟩
      · exact .inr hl
      · exact .inl rfl
  · rw [declare_of_not_mem h]
    constructor
    · exact .inl
    · intro hx
      rcases hx with hl | ⟨rfl, hl⟩
      · exact hl
      · exact absurd hl h

/-- The set of names has the names of all locations declared. -/
def Indexed (t : DeclaredNames) : Prop :=
  ∀ name, name ∈ t.names ↔ ∃ l ∈ t.declared, l.resource = name

theorem Indexed.declare (h : t.Indexed) : (t.declare directory name).Indexed := by
  intro x
  have hnames : x ∈ (t.declare directory name).names ↔ x ∈ t.names ∨ x = name := by
    by_cases hc : (⟨directory, name⟩ : Location) ∈ t.declared
    · rw [declare_of_mem hc]
      constructor
      · exact .inl
      · intro hy
        rcases hy with hx | rfl
        · exact hx
        · exact (h _).mpr ⟨_, hc, rfl⟩
    · rw [declare_of_not_mem hc]
      have hone : x ∈ t.names.insertAll [name] ↔ x ∈ t.names ∨ x ∈ [name] := NameSet.mem_insertAll
      rw [List.mem_singleton] at hone
      exact hone
  rw [hnames, h x]
  constructor
  · intro hy
    rcases hy with ⟨l, hl, rfl⟩ | rfl
    · exact ⟨l, mem_declared_declare.mpr (.inl hl), rfl⟩
    · exact ⟨_, mem_declared_declare.mpr (.inr rfl), rfl⟩
  · intro hy
    obtain ⟨l, hl, rfl⟩ := hy
    rcases mem_declared_declare.mp hl with hl | rfl
    · exact .inl ⟨l, hl, rfl⟩
    · exact .inr rfl

/-! ## All declarations of a directory -/

theorem misplaced_declareAll {names : List String} :
    (t.declareAll directory names).misplaced = t.misplaced := by
  induction names generalizing t with
  | nil => rfl
  | cons name names ih => rw [declareAll_cons, ih, misplaced_declare]

theorem mem_declared_declareAll {names : List String} {l : Location} :
    l ∈ (t.declareAll directory names).declared ↔
      l ∈ t.declared ∨ directory = l.directory ∧ l.resource ∈ names := by
  induction names generalizing t with
  | nil => simp [declareAll]
  | cons name names ih =>
    obtain ⟨place, resource⟩ := l
    rw [declareAll_cons, ih, mem_declared_declare]
    simp only [Location.mk.injEq, List.mem_cons]
    grind

theorem mem_duplicates_declareAll {names : List String} {l : Location} :
    l ∈ (t.declareAll directory names).duplicates ↔
      l ∈ t.duplicates ∨ directory = l.directory ∧
        (l ∈ t.declared ∧ l.resource ∈ names ∨ 2 ≤ names.count l.resource) := by
  induction names generalizing t with
  | nil => simp [declareAll]
  | cons name names ih =>
    obtain ⟨place, resource⟩ := l
    rw [declareAll_cons, ih, mem_duplicates_declare, mem_declared_declare]
    simp only [Location.mk.injEq, List.mem_cons]
    by_cases hname : name = resource
    · -- this declaration counts once more; the rest has the name exactly if it counts it
      subst hname
      have hcount : names.count name + 1 = (name :: names).count name := by
        rw [List.count_cons_self]
      have hpos : 1 ≤ names.count name ↔ name ∈ names := List.one_le_count_iff
      grind
    · rw [List.count_cons_of_ne hname]
      grind

theorem Indexed.declareAll (h : t.Indexed) {names : List String} :
    (t.declareAll directory names).Indexed := by
  induction names generalizing t with
  | nil => exact h
  | cons name names ih => exact ih h.declare

theorem declareAll_append (names names' : List String) :
    t.declareAll directory (names ++ names') =
      (t.declareAll directory names).declareAll directory names' := List.foldl_append

/-! ## The walk over a section -/

/-- The tally is in this directory, and nothing was misplaced. -/
def Inside (directory : String) (t : DeclaredNames) : Prop :=
  t.directory = some directory ∧ t.misplaced = none

theorem Inside.declareAll (h : t.Inside directory) {names : List String} :
    (t.declareAll directory names).Inside directory := by
  induction names generalizing t with
  | nil => exact h
  | cons name names ih =>
    refine ih ⟨?_, ?_⟩
    · rw [directory_declare, h.1]
    · rw [misplaced_declare, h.2]

/-- Walking over parts one by one takes the names of all of them. -/
theorem foldl_eq_declareAll {α : Type} {walk : α → DeclaredNames → DeclaredNames}
    {names : α → List String}
    (hwalk : ∀ a t, Inside directory t → walk a t = t.declareAll directory (names a)) (l : List α)
    (h : t.Inside directory) :
    l.foldl (fun t a => walk a t) t = t.declareAll directory (l.flatMap names) := by
  induction l generalizing t with
  | nil => rfl
  | cons a l ih =>
    rw [List.foldl_cons, hwalk a t h, ih h.declareAll, List.flatMap_cons, declareAll_append]

theorem walk_resource (r : Resource) (h : t.Inside directory) :
    r.walk walker t = t.declareAll directory [r.name] := by
  simp only [Resource.walk, walker, h.1, h.2]
  rfl

theorem walk_holding (c : Holding) (h : t.Inside directory) :
    c.walk walker t = t.declareAll directory (c.resources.toList.map Resource.name) := by
  have hvisit : walker.visit t (.holding c) = t := by simp only [walker, h.2]
  have hresources := foldl_eq_declareAll (fun r t ht => walk_resource r ht) c.resources.toList h
  simp only [Holding.walk, hvisit]
  rw [← List.map_eq_flatMap] at hresources
  exact hresources

theorem walk_grant (g : Grant) (h : t.Inside directory) :
    g.walk walker t = t.declareAll directory (g.resources.map Resource.name) := by
  have hvisit : walker.visit t (.grant g) = t := by simp only [walker, h.2]
  have hholdings := foldl_eq_declareAll (fun c t ht => walk_holding c ht) g.holdings.toList h
  simp only [Grant.walk, hvisit, Grant.resources, List.map_flatMap]
  exact hholdings

/-- A section is taken as the list of its names. -/
theorem walk_section (c : Section) (h : t.misplaced = none) :
    c.walk walker t =
      ({ t with directory := some c.name } : DeclaredNames).declareAll c.name c.names := by
  have hvisit : walker.visit t (.directory c) = { t with directory := some c.name } := by
    simp only [walker, h]
  have hin : Inside c.name { t with directory := some c.name } := ⟨rfl, h⟩
  have hpublic := foldl_eq_declareAll (fun h t ht => walk_holding h ht) c.publicDomain.toList hin
  have hin' : Inside c.name (({ t with directory := some c.name } : DeclaredNames).declareAll c.name
      (c.publicDomain.toList.flatMap fun h => h.resources.toList.map Resource.name)) :=
    hin.declareAll
  have hgrants := foldl_eq_declareAll (fun g t ht => walk_grant g ht) c.grants hin'
  simp only [Section.walk, hvisit, Section.names, Section.resources, List.map_append,
    List.map_flatMap, declareAll_append]
  rw [← hgrants, ← hpublic]
  rfl

/-! ## The walk over several sections -/

/-- The tally holds what these sections declare. -/
structure Holds (cs : List Section) (t : DeclaredNames) : Prop where
  misplaced : t.misplaced = none
  declared : ∀ l, l ∈ t.declared ↔ ∃ c ∈ cs, c.name = l.directory ∧ l.resource ∈ c.names
  duplicates : ∀ l, l ∈ t.duplicates ↔
    ∃ c ∈ cs, c.name = l.directory ∧ 2 ≤ c.names.count l.resource
  indexed : t.Indexed

theorem holds_start : Holds [] start where
  misplaced := rfl
  declared l := by
    constructor
    · intro hl
      exact absurd hl SortedBy.not_mem_empty
    · intro h
      obtain ⟨c, hc, -⟩ := h
      cases hc
  duplicates l := by
    constructor
    · intro hl
      exact absurd hl SortedBy.not_mem_empty
    · intro h
      obtain ⟨c, hc, -⟩ := h
      cases hc
  indexed name := by
    constructor
    · intro hn
      exact absurd hn SortedBy.not_mem_empty
    · intro h
      obtain ⟨l, hl, -⟩ := h
      exact absurd hl SortedBy.not_mem_empty

theorem Holds.declareAll {cs : List Section} (ht : Holds cs t) {c : Section}
    (hc : c.name ∉ cs.map Section.name) :
    Holds (cs ++ [c]) (t.declareAll c.name c.names) where
  misplaced := misplaced_declareAll.trans ht.misplaced
  declared l := by rw [mem_declared_declareAll, ht.declared, Section.exists_mem_concat]
  duplicates l := by
    rw [mem_duplicates_declareAll, ht.duplicates, Section.exists_mem_concat]
    refine or_congr Iff.rfl (and_congr_right fun hdir => or_iff_right ?_)
    intro h
    obtain ⟨hl, -⟩ := h
    obtain ⟨c', hc', hname, -⟩ := (ht.declared l).mp hl
    apply hc
    rw [hdir, ← hname]
    exact List.mem_map_of_mem hc'
  indexed := ht.indexed.declareAll

/-- A section of another directory adds its own declarations. -/
theorem Holds.section {cs : List Section} (ht : Holds cs t) {c : Section}
    (hc : c.name ∉ cs.map Section.name) : Holds (cs ++ [c]) (c.walk walker t) := by
  have hmoved : Holds cs { t with directory := some c.name } :=
    ⟨ht.misplaced, ht.declared, ht.duplicates, ht.indexed⟩
  rw [walk_section c ht.misplaced]
  exact hmoved.declareAll hc

theorem Holds.sections {cs cs' : List Section} (ht : Holds cs t)
    (hd : ((cs ++ cs').map Section.name).Nodup) :
    Holds (cs ++ cs') (cs'.foldl (fun t c => c.walk walker t) t) := by
  induction cs' generalizing cs t with
  | nil =>
    rw [List.append_nil]
    exact ht
  | cons c cs' ih =>
    have hc : c.name ∉ cs.map Section.name := by
      rw [List.map_append, List.nodup_append] at hd
      intro hm
      exact hd.2.2 _ hm _ List.mem_cons_self rfl
    rw [List.append_cons] at hd ⊢
    exact ih (ht.section hc) hd

/-- The walk over a descriptor tallies all its sections. -/
theorem holds_walk (d : Descriptor) : Holds d.sections.toList (d.walk walker .start) :=
  holds_start.sections (by rw [List.nil_append]; exact d.nodup_section_names)

/-- The walk over a section tallies it alone. -/
theorem holds_walk_section (c : Section) : Holds [c] (c.walk walker .start) :=
  holds_start.section List.not_mem_nil

end DeclaredNames

end LicenseAudit
