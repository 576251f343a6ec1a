import LicenseAudit.Proofs.Descriptor.Declarations
import LicenseAudit.Tally.SourceLinks

/-!
# What the tally of source links holds

A grant changes the license that the tally is in, and the public domain is not entered, so within a
section every resource is taken under the license of its own grant, whatever grant was met before
(`walk_grant`). What the tally holds afterwards is then a matter of the sections' own links.
-/

set_option autoImplicit false

namespace LicenseAudit

namespace SourceLinks

/-- The resources under a license that requires a source: those with one, or those without. -/
def links (t : SourceLinks) (hasSource : Bool) : Locations :=
  if hasSource then t.present else t.missing

/-- Takes resources of a directory under a license. -/
def takeAll (t : SourceLinks) (directory : String) (license : License) (rs : List Resource) :
    SourceLinks :=
  rs.foldl (fun t r => t.take directory license r) t

variable {t : SourceLinks} {directory : String} {license : License}

/-! ## One resource -/

theorem take_of_required {r : Resource} (h : license.sourceRequired = true) :
    t.take directory license r =
      if r.hasSource then { t with present := t.present.insertNew ⟨directory, r.name⟩ }
      else { t with missing := t.missing.insertNew ⟨directory, r.name⟩ } :=
  if_pos h

theorem take_of_not_required {r : Resource} (h : license.sourceRequired = false) :
    t.take directory license r = t := by
  unfold take
  rw [h]
  rfl

theorem context_take (r : Resource) :
    (t.take directory license r).directory = t.directory ∧
      (t.take directory license r).license = t.license ∧
      (t.take directory license r).misplaced = t.misplaced := by
  cases h : license.sourceRequired with
  | false =>
    rw [take_of_not_required h]
    exact ⟨rfl, rfl, rfl⟩
  | true =>
    rw [take_of_required h]
    cases r.hasSource <;> exact ⟨rfl, rfl, rfl⟩

theorem mem_links_take {b : Bool} {r : Resource} {l : Location} :
    l ∈ (t.take directory license r).links b ↔
      l ∈ t.links b ∨ license.sourceRequired = true ∧ r.hasSource = b ∧
        l = ⟨directory, r.name⟩ := by
  cases h : license.sourceRequired with
  | false =>
    rw [take_of_not_required h]
    simp
  | true =>
    rw [take_of_required h]
    cases hs : r.hasSource with
    | false =>
      cases b with
      | false =>
        have hnew : l ∈ t.missing.insertNew ⟨directory, r.name⟩ ↔
            l = ⟨directory, r.name⟩ ∨ l ∈ t.missing := Locations.mem_insertNew
        simp [links, hnew, or_comm]
      | true => simp [links]
    | true =>
      cases b with
      | false => simp [links]
      | true =>
        have hnew : l ∈ t.present.insertNew ⟨directory, r.name⟩ ↔
            l = ⟨directory, r.name⟩ ∨ l ∈ t.present := Locations.mem_insertNew
        simp [links, hnew, or_comm]

theorem mem_links_takeAll {b : Bool} {rs : List Resource} {l : Location} :
    l ∈ (t.takeAll directory license rs).links b ↔
      l ∈ t.links b ∨ license.sourceRequired = true ∧ directory = l.directory ∧
        ∃ r ∈ rs, r.name = l.resource ∧ r.hasSource = b := by
  induction rs generalizing t with
  | nil => simp [takeAll]
  | cons r rs ih =>
    obtain ⟨place, resource⟩ := l
    have hcons : t.takeAll directory license (r :: rs) =
        (t.take directory license r).takeAll directory license rs := rfl
    rw [hcons, ih, mem_links_take]
    simp only [Location.mk.injEq, List.mem_cons, or_and_right, exists_or, exists_eq_left]
    grind

/-! ## The walk over a section -/

/-- The tally is in this directory and under this license, and nothing was misplaced. -/
def Inside (directory : String) (license : License) (t : SourceLinks) : Prop :=
  t.directory = some directory ∧ t.license = some license ∧ t.misplaced = none

theorem Inside.take (h : t.Inside directory license) (r : Resource) :
    (t.take directory license r).Inside directory license := by
  obtain ⟨hd, hl, hm⟩ := @context_take t directory license r
  exact ⟨hd.trans h.1, hl.trans h.2.1, hm.trans h.2.2⟩

theorem Inside.takeAll (h : t.Inside directory license) (rs : List Resource) :
    (t.takeAll directory license rs).Inside directory license := by
  induction rs generalizing t with
  | nil => exact h
  | cons r rs ih => exact ih (h.take r)

theorem walk_resource (r : Resource) (h : t.Inside directory license) :
    r.walk walker t = t.take directory license r := by
  simp only [Resource.walk, walker, h.1, h.2.1, h.2.2]

theorem foldl_walk_resource (rs : List Resource) (h : t.Inside directory license) :
    rs.foldl (fun t r => r.walk walker t) t = t.takeAll directory license rs := by
  induction rs generalizing t with
  | nil => rfl
  | cons r rs ih =>
    rw [List.foldl_cons, walk_resource r h, ih (h.take r)]
    rfl

theorem walk_holding (c : Holding) (h : t.Inside directory license) :
    c.walk walker t = t.takeAll directory license c.resources.toList := by
  have hvisit : walker.visit t (.holding c) = t := by simp only [walker, h.2.2]
  simp only [Holding.walk, hvisit]
  exact foldl_walk_resource c.resources.toList h

theorem foldl_walk_holding (cs : List Holding) (h : t.Inside directory license) :
    cs.foldl (fun t c => c.walk walker t) t =
      t.takeAll directory license (cs.flatMap fun c => c.resources.toList) := by
  induction cs generalizing t with
  | nil => rfl
  | cons c cs ih =>
    rw [List.foldl_cons, walk_holding c h, ih (h.takeAll _), List.flatMap_cons, takeAll, takeAll,
      takeAll, List.foldl_append]

/-- The resources of a grant are taken under its license. -/
theorem walk_grant (g : Grant) (hd : t.directory = some directory) (hm : t.misplaced = none) :
    g.walk walker t =
      ({ t with license := some g.license } : SourceLinks).takeAll directory g.license
        g.resources := by
  have hvisit : walker.visit t (.grant g) = { t with license := some g.license } := by
    simp only [walker, hm]
  have hin : Inside directory g.license { t with license := some g.license } := ⟨hd, rfl, hm⟩
  simp only [Grant.walk, hvisit]
  exact foldl_walk_holding g.holdings.toList hin

theorem foldl_walk_grant (gs : List Grant) (hd : t.directory = some directory)
    (hm : t.misplaced = none) :
    (gs.foldl (fun t g => g.walk walker t) t).misplaced = none ∧
      ∀ b l, l ∈ (gs.foldl (fun t g => g.walk walker t) t).links b ↔
        l ∈ t.links b ∨ directory = l.directory ∧ ∃ g ∈ gs, g.license.sourceRequired = true ∧
          ∃ r ∈ g.resources, r.name = l.resource ∧ r.hasSource = b := by
  induction gs generalizing t with
  | nil =>
    refine ⟨hm, fun b l => ?_⟩
    simp
  | cons g gs ih =>
    rw [List.foldl_cons, walk_grant g hd hm]
    have hin : Inside directory g.license { t with license := some g.license } := ⟨hd, rfl, hm⟩
    obtain ⟨hd', -, hm'⟩ := hin.takeAll g.resources
    obtain ⟨hmis, hlinks⟩ := ih hd' hm'
    refine ⟨hmis, fun b l => ?_⟩
    have hsame : l ∈ ({ t with license := some g.license } : SourceLinks).links b ↔
        l ∈ t.links b := Iff.rfl
    rw [hlinks, mem_links_takeAll, hsame]
    simp only [List.mem_cons, or_and_right, exists_or, exists_eq_left]
    grind

/-- A section adds its own links, whatever was met before it. -/
theorem walk_section (c : Section) (hm : t.misplaced = none) :
    (c.walk walker t).misplaced = none ∧
      ∀ b l, l ∈ (c.walk walker t).links b ↔
        l ∈ t.links b ∨ c.name = l.directory ∧ c.Links b l.resource := by
  have hvisit : walker.visit t (.directory c) =
      { t with directory := some c.name, license := none } := by
    simp only [walker, hm]
  have hwalk : c.walk walker t = c.grants.foldl (fun t g => g.walk walker t)
      { t with directory := some c.name, license := none } := by
    simp only [Section.walk, hvisit]
    rfl
  rw [hwalk]
  have hin : ({ t with directory := some c.name, license := none } : SourceLinks).directory =
      some c.name := rfl
  exact foldl_walk_grant c.grants hin hm

/-! ## The walk over several sections -/

/-- The tally holds the links of these sections. -/
structure Holds (cs : List Section) (t : SourceLinks) : Prop where
  misplaced : t.misplaced = none
  links : ∀ b l, l ∈ t.links b ↔ ∃ c ∈ cs, c.name = l.directory ∧ c.Links b l.resource

theorem holds_start : Holds [] start where
  misplaced := rfl
  links b l := by
    constructor
    · intro hl
      cases b <;> exact absurd hl SortedBy.not_mem_empty
    · intro h
      obtain ⟨c, hc, -⟩ := h
      cases hc

theorem Holds.section {cs : List Section} (ht : Holds cs t) (c : Section) :
    Holds (cs ++ [c]) (c.walk walker t) := by
  obtain ⟨hmis, hlinks⟩ := walk_section c ht.misplaced
  refine ⟨hmis, fun b l => ?_⟩
  rw [hlinks, Section.exists_mem_concat, ht.links]

theorem Holds.sections {cs cs' : List Section} (ht : Holds cs t) :
    Holds (cs ++ cs') (cs'.foldl (fun t c => c.walk walker t) t) := by
  induction cs' generalizing cs t with
  | nil =>
    rw [List.append_nil]
    exact ht
  | cons c cs' ih =>
    rw [List.append_cons]
    exact ih (ht.section c)

/-- The walk over a descriptor tallies all its sections. -/
theorem holds_walk (d : Descriptor) : Holds d.sections.toList (d.walk walker .start) :=
  holds_start.sections

/-- The walk over a section tallies it alone. -/
theorem holds_walk_section (c : Section) : Holds [c] (c.walk walker .start) :=
  holds_start.section c

end SourceLinks

end LicenseAudit
