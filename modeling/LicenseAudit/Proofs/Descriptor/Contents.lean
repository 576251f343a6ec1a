import LicenseAudit.Proofs.Descriptor.Drafting
import LicenseAudit.Proofs.Ordered.Arrangement

/-!
# What calls leave in a draft

What is in a draft can be read off the calls that wrote it. Under an id it has the license, and the
organisation, of the first call that brought one with this id (`licenses_draftOf`,
`organisations_draftOf`): a later one is refused. Its sections are the ones that were taken
(`sections_draftOf`), and no two of these have one name.
-/

set_option autoImplicit false

namespace LicenseAudit

namespace SortedBy

variable {α κ : Type} [Ord κ] {key : α → κ} [Std.LawfulEqOrd κ] [Std.TransOrd κ]

theorem insertNew_of_contains {s : SortedBy key} {a : α} (h : s.contains (key a) = true) :
    s.insertNew a = s := by
  obtain ⟨b, hb, hk⟩ := contains_iff.mp h
  apply ext_mem
  intro x
  rw [mem_insertNew]
  constructor
  · rintro (⟨rfl, hfree⟩ | hx)
    · exact absurd hk (hfree b hb)
    · exact hx
  · exact .inr

end SortedBy

namespace Drafting

variable {d : Draft}

def Call.license? : Call → Option License
  | .addLicense l => some l
  | _ => none

def Call.organisation? : Call → Option Organisation
  | .addOrganisation o => some o
  | _ => none

/-! ## Licenses and organisations -/

theorem next_eq (d : Draft) (c : Call) : next d c = (outcome d (d.effect c)).2 :=
  congrArg Prod.snd (run_perform c d)

theorem next_addLicense (d : Draft) (l : License) :
    next d (.addLicense l) = { d with licenses := d.licenses.insertNew l } := by
  rw [next_eq, Draft.effect, Draft.addLicense]
  split
  · rename_i h
    rw [SortedBy.insertNew_of_contains h]
    rfl
  · rfl

theorem next_addOrganisation (d : Draft) (o : Organisation) :
    next d (.addOrganisation o) = { d with organisations := d.organisations.insertNew o } := by
  rw [next_eq, Draft.effect, Draft.addOrganisation]
  split
  · rename_i h
    rw [SortedBy.insertNew_of_contains h]
    rfl
  · rfl

theorem next_addSection (d : Draft) (s : Section) :
    (next d (.addSection s)).licenses = d.licenses ∧
      (next d (.addSection s)).organisations = d.organisations := by
  rcases next_cases d (.addSection s) with h | h
  · rw [h]
    exact ⟨rfl, rfl⟩
  · rw [(Draft.addSection_eq_ok h).1]
    exact ⟨rfl, rfl⟩

theorem licenses_next (d : Draft) (c : Call) :
    (next d c).licenses = d.licenses.insertAll c.license?.toList := by
  cases c with
  | addLicense l => rw [next_addLicense]; rfl
  | addOrganisation o => rw [next_addOrganisation]; rfl
  | addSection s => exact (next_addSection d s).1
  | addNotice | setPrimaryNotice | setPrimaryCopyrightNotice => rfl

theorem organisations_next (d : Draft) (c : Call) :
    (next d c).organisations = d.organisations.insertAll c.organisation?.toList := by
  cases c with
  | addLicense l => rw [next_addLicense]; rfl
  | addOrganisation o => rw [next_addOrganisation]; rfl
  | addSection s => exact (next_addSection d s).2
  | addNotice | setPrimaryNotice | setPrimaryCopyrightNotice => rfl

/-- What each call inserts, a run inserts in turn. -/
theorem foldl_eq_insertAll {α : Type} {key : α → String} {get : Draft → SortedBy key}
    {of? : Call → Option α} (hnext : ∀ d c, get (next d c) = (get d).insertAll (of? c).toList)
    (cs : List Call) (d : Draft) :
    get (cs.foldl next d) = (get d).insertAll (cs.filterMap of?) := by
  induction cs generalizing d with
  | nil => rfl
  | cons c cs ih =>
    rw [List.foldl_cons, ih, hnext, ← SortedBy.insertAll_append]
    cases h : of? c <;> simp [h]

theorem licenses_draftOf (cs : List Call) :
    (draftOf cs).licenses = .ofList (cs.filterMap Call.license?) :=
  foldl_eq_insertAll licenses_next cs ∅

theorem organisations_draftOf (cs : List Call) :
    (draftOf cs).organisations = .ofList (cs.filterMap Call.organisation?) :=
  foldl_eq_insertAll organisations_next cs ∅

/-! ## Sections -/

/-- The section that a call adds, if it succeeds in adding one. -/
def addedBy? (d : Draft) : Call → Option Section
  | .addSection s =>
    match ((addSection s).run d).1 with
    | .ok _ => some s
    | .error _ => none
  | _ => none

/-- The sections that calls add, in the order of the calls. -/
def added (d : Draft) : List Call → List Section
  | [] => []
  | c :: cs => (addedBy? d c).toList ++ added (next d c) cs

theorem addSection_eq_ok_iff {s : Section} :
    ((addSection s).run d).1 = .ok () ↔
      d.sections.contains s.name = false ∧ ∀ r ∈ s.references, d.registers r = true := by
  rw [← Draft.check_eq_ok_iff, Draft.check, run_addSection]
  cases d.sections.contains s.name with
  | true => simp
  | false => cases s.references.find? fun r => !d.registers r <;> simp

theorem addedBy?_eq_some_iff {c : Call} {s : Section} :
    addedBy? d c = some s ↔ c = .addSection s ∧ ((addSection s).run d).1 = .ok () := by
  cases c with
  | addSection s' =>
    simp only [addedBy?, Call.addSection.injEq]
    cases h : ((addSection s').run d).1 <;> grind
  | _ => simp [addedBy?]

theorem sections_next (d : Draft) (c : Call) :
    (next d c).sections = d.sections.insertAll (addedBy? d c).toList := by
  cases c with
  | addLicense l => rw [next_addLicense]; rfl
  | addOrganisation o => rw [next_addOrganisation]; rfl
  | addNotice | setPrimaryNotice | setPrimaryCopyrightNotice => rfl
  | addSection s =>
    rw [addedBy?]
    have hrun : ((addSection s).run d).2 = next d (.addSection s) := rfl
    rw [← hrun, run_addSection]
    cases d.sections.contains s.name with
    | true => rfl
    | false => cases s.references.find? fun r => !d.registers r <;> rfl

theorem sections_foldl (cs : List Call) (d : Draft) :
    (cs.foldl next d).sections = d.sections.insertAll (added d cs) := by
  induction cs generalizing d with
  | nil => rfl
  | cons c cs ih => rw [List.foldl_cons, ih, sections_next, ← SortedBy.insertAll_append, added]

/-- Sections are added under new names only. -/
theorem nodup_added (cs : List Call) (d : Draft) :
    ((added d cs).map Section.name).Nodup ∧
      ∀ s ∈ added d cs, d.sections.contains s.name = false := by
  induction cs generalizing d with
  | nil => simp [added]
  | cons c cs ih =>
    obtain ⟨hnodup, hnew⟩ := ih (next d c)
    have hkept : ∀ s ∈ added (next d c) cs, d.sections.contains s.name = false := by
      intro s hs
      rw [Bool.eq_false_iff]
      intro htaken
      have hlater := hnew s hs
      rw [sections_next, Bool.eq_false_iff] at hlater
      exact hlater (SortedBy.contains_insertAll.mpr (.inl htaken))
    cases h : addedBy? d c with
    | none =>
      simp only [added, h, Option.toList_none, List.nil_append]
      exact ⟨hnodup, hkept⟩
    | some s =>
      have hfree := (addSection_eq_ok_iff.mp (addedBy?_eq_some_iff.mp h).2).1
      simp only [added, h, Option.toList_some, List.singleton_append, List.map_cons,
        List.nodup_cons, List.mem_cons, forall_eq_or_imp]
      refine ⟨⟨?_, hnodup⟩, hfree, hkept⟩
      intro hmem
      obtain ⟨s', hs', hname⟩ := List.mem_map.mp hmem
      have hlater := hnew s' hs'
      rw [sections_next, h, hname, Bool.eq_false_iff] at hlater
      exact hlater (SortedBy.contains_insertAll.mpr (.inr List.mem_cons_self))

theorem sections_draftOf (cs : List Call) : (draftOf cs).sections = .ofList (added ∅ cs) :=
  sections_foldl cs ∅

theorem mem_added_iff {cs : List Call} {s : Section} :
    s ∈ added d cs ↔ ∃ before after, cs = before ++ .addSection s :: after ∧
      ((addSection s).run (before.foldl next d)).1 = .ok () := by
  induction cs generalizing d with
  | nil => simp [added]
  | cons c cs ih =>
    rw [added, List.mem_append, Option.mem_toList, addedBy?_eq_some_iff, ih]
    constructor
    · rintro (⟨rfl, hok⟩ | ⟨before, after, rfl, hok⟩)
      · exact ⟨[], cs, rfl, hok⟩
      · exact ⟨c :: before, after, rfl, hok⟩
    · rintro ⟨before, after, heq, hok⟩
      cases before with
      | nil =>
        cases heq
        exact .inl ⟨rfl, hok⟩
      | cons c' before =>
        cases heq
        exact .inr ⟨before, after, rfl, hok⟩

end Drafting

end LicenseAudit
