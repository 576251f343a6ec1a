import LicenseAudit.Proofs.Descriptor.Drafting
import LicenseAudit.Proofs.Tally.NoticeIndex

/-!
# Who carries which notice

What a descriptor answers is said here of its declarations alone. An id that some resource refers to
and that has no text makes the answer a fault, of the least such id. Otherwise the texts are those
of the ids in use, and each has the names that refer to it, whatever the id. A name may be declared
more than once under a text; the least id decides which declaration is kept, and after it the order
of the walk.
-/

set_option autoImplicit false

namespace LicenseAudit

namespace Descriptor

/-- A declared resource refers to this id, and the id has this text. -/
def Carries (d : Descriptor) (r : Resource) (id text : String) : Prop :=
  r ∈ d.resources ∧ r.noticeId = some id ∧ d.notices.get? id = some text

/-- A declared resource refers to this id, and the id has no text. -/
def Lacks (d : Descriptor) (id : String) : Prop :=
  (∃ r ∈ d.resources, r.noticeId = some id) ∧ d.notices.get? id = none

variable {d : Descriptor} {id : String}

theorem exists_mem_byNotice {P : String → Resources → Prop} :
    (∃ e ∈ (d.walk NoticeIndex.walker .start).byNotice, P e.1 e.2) ↔
      ∃ id, (∃ r ∈ d.resources, r.noticeId = some id) ∧ P id (.ofList (d.citing id)) := by
  constructor
  · rintro ⟨⟨id, rs⟩, he, h⟩
    obtain ⟨hcited, rfl⟩ := NoticeIndex.mem_byNotice.mp he
    exact ⟨id, hcited, h⟩
  · rintro ⟨id, hcited, h⟩
    exact ⟨(id, _), NoticeIndex.mem_byNotice.mpr ⟨hcited, rfl⟩, h⟩

theorem contains_citing {name : String} :
    (.ofList (d.citing id) : Resources).contains name = true ↔
      ∃ r ∈ d.resources, r.noticeId = some id ∧ r.name = name := by
  simp [SortedBy.contains_ofList, citing, and_assoc]

/-- Of the resources of one id and one name the first on the walk is found. -/
theorem find?_citing {r : Resource} :
    (.ofList (d.citing id) : Resources).find? r.name = some r ↔
      r.noticeId = some id ∧ ∃ before after, d.resources = before ++ r :: after ∧
        ∀ e ∈ before, e.noticeId = some id → e.name ≠ r.name := by
  rw [SortedBy.find?_ofList, citing, List.find?_filter, List.find?_eq_some_iff_append]
  simp [imp_iff_not_or]

/-! ## An id without a text -/

theorem resourceNotices_of_lacks (h : d.Lacks id) :
    ∃ id, d.resourceNotices = .error (.unknownNotice id) ∧ d.Lacks id ∧
      ∀ id', d.Lacks id' → id ≤ id' := by
  obtain ⟨⟨least, rs⟩, he, herror, hnone, hmin⟩ :=
    NoticeIndex.resourceNotices_of_lacking (NoticeIndex.mem_byNotice.mpr ⟨h.1, rfl⟩) h.2
  refine ⟨least, herror, ⟨(NoticeIndex.mem_byNotice.mp he).1, hnone⟩, fun id' h' => ?_⟩
  exact hmin (id', _) (NoticeIndex.mem_byNotice.mpr ⟨h'.1, rfl⟩) h'.2

/-! ## Every id with a text -/

/-- The resources under the texts of their notices. -/
def noticeTable (d : Descriptor) : Table Resources :=
  (d.walk NoticeIndex.walker .start).resolved d.notices

theorem resourceNotices_eq_ok (h : ∀ id, ¬d.Lacks id) : d.resourceNotices = .ok d.noticeTable := by
  apply NoticeIndex.resourceNotices_eq_ok
  intro e he hnone
  exact h e.1 ⟨(NoticeIndex.mem_byNotice.mp he).1, hnone⟩

variable {text : String} {rs : Resources}

theorem mem_keys_noticeTable : text ∈ d.noticeTable.keys ↔ ∃ r id, d.Carries r id text := by
  rw [noticeTable, NoticeIndex.mem_keys_resolved,
    exists_mem_byNotice (P := fun id _ => d.notices.get? id = some text)]
  constructor
  · rintro ⟨id, ⟨r, hr, hid⟩, htext⟩
    exact ⟨r, id, hr, hid, htext⟩
  · rintro ⟨r, id, hr, hid, htext⟩
    exact ⟨id, ⟨r, hr, hid⟩, htext⟩

theorem exists_mem_noticeTable (h : d.noticeTable.get? text = some rs) {name : String} :
    (∃ r ∈ rs, r.name = name) ↔ ∃ r id, d.Carries r id text ∧ r.name = name := by
  rw [← SortedBy.contains_iff, NoticeIndex.contains_resolved h,
    exists_mem_byNotice (P := fun id rs => d.notices.get? id = some text ∧ rs.contains name = true)]
  simp only [contains_citing]
  constructor
  · rintro ⟨id, -, htext, r, hr, hid, hname⟩
    exact ⟨r, id, ⟨hr, hid, htext⟩, hname⟩
  · rintro ⟨r, id, ⟨hr, hid, htext⟩, hname⟩
    exact ⟨id, ⟨r, hr, hid⟩, htext, r, hr, hid, hname⟩

theorem mem_noticeTable (h : d.noticeTable.get? text = some rs) {r : Resource} :
    r ∈ rs ↔ ∃ id, d.Carries r id text ∧
      (∀ r' id', d.Carries r' id' text → r'.name = r.name → id ≤ id') ∧
      ∃ before after, d.resources = before ++ r :: after ∧
        ∀ e ∈ before, e.noticeId = some id → e.name ≠ r.name := by
  have hmem : r ∈ rs ↔ rs.find? r.name = some r := by
    rw [SortedBy.find?_eq_some_iff, and_iff_left rfl]
  -- the ids that would be below are those of declarations with the same name and text
  have hleast : ∀ id : String,
      (∀ e ∈ (d.walk NoticeIndex.walker .start).byNotice, d.notices.get? e.1 = some text →
        e.2.contains r.name = true → id ≤ e.1) ↔
      ∀ r' id', d.Carries r' id' text → r'.name = r.name → id ≤ id' := by
    intro id
    constructor
    · rintro hmin r' id' ⟨hr', hid', htext⟩ hname
      exact hmin (id', _) (NoticeIndex.mem_byNotice.mpr ⟨⟨r', hr', hid'⟩, rfl⟩) htext
        (contains_citing.mpr ⟨r', hr', hid', hname⟩)
    · rintro hmin ⟨id', rs'⟩ he htext hcontains
      obtain ⟨-, rfl⟩ := NoticeIndex.mem_byNotice.mp he
      obtain ⟨r', hr', hid', hname⟩ := contains_citing.mp hcontains
      exact hmin r' id' ⟨hr', hid', htext⟩ hname
  rw [hmem, NoticeIndex.find?_resolved h]
  simp only [hleast]
  rw [exists_mem_byNotice (P := fun id rs => d.notices.get? id = some text ∧
    rs.find? r.name = some r ∧ ∀ r' id', d.Carries r' id' text → r'.name = r.name → id ≤ id')]
  simp only [find?_citing]
  constructor
  · rintro ⟨id, -, htext, ⟨hid, before, after, hsplit, hfirst⟩, hmin⟩
    have hr : r ∈ d.resources := by
      rw [hsplit]
      simp
    exact ⟨id, ⟨hr, hid, htext⟩, hmin, before, after, hsplit, hfirst⟩
  · rintro ⟨id, ⟨hr, hid, htext⟩, hmin, before, after, hsplit, hfirst⟩
    exact ⟨id, ⟨r, hr, hid⟩, htext, ⟨hid, before, after, hsplit, hfirst⟩, hmin⟩

/-- The answer is a fault exactly if an id in use has no text, and then of the least such id.
Otherwise each text of an id in use has the names that refer to it; of a name the declaration with
the least such id is kept, and of these the first on the walk. -/
theorem resourceNotices_groups (d : Descriptor) :
    ((∃ id, d.Lacks id) → ∃ id, d.resourceNotices = .error (.unknownNotice id) ∧ d.Lacks id ∧
      ∀ id', d.Lacks id' → id ≤ id') ∧
    ((∀ id, ¬d.Lacks id) → ∃ table, d.resourceNotices = .ok table ∧
      (∀ text, text ∈ table.keys ↔ ∃ r id, d.Carries r id text) ∧
      ∀ text rs, table.get? text = some rs →
        (∀ name, (∃ r ∈ rs, r.name = name) ↔ ∃ r id, d.Carries r id text ∧ r.name = name) ∧
        ∀ r, r ∈ rs ↔ ∃ id, d.Carries r id text ∧
          (∀ r' id', d.Carries r' id' text → r'.name = r.name → id ≤ id') ∧
          ∃ before after, d.resources = before ++ r :: after ∧
            ∀ e ∈ before, e.noticeId = some id → e.name ≠ r.name) := by
  constructor
  · rintro ⟨id, h⟩
    exact resourceNotices_of_lacks h
  · intro hall
    refine ⟨d.noticeTable, resourceNotices_eq_ok hall, fun _ => mem_keys_noticeTable, ?_⟩
    intro text rs hrs
    exact ⟨fun _ => exists_mem_noticeTable hrs, fun _ => mem_noticeTable hrs⟩

/-! ## A name under two ids of one text -/

/-- Resources that one organisation has in the public domain of a directory. -/
def noted (directory : String) (rs : Arranged Resource.name) : Section :=
  ⟨directory, [], ⟨[⟨⟨"O", "Organisation", ""⟩, rs⟩], List.pairwise_singleton _ _⟩⟩

/-- `x` is declared under a greater id first, and then twice under a smaller one. -/
def noting (texts : List (String × String)) : List Drafting.Call :=
  [.addLicense ⟨"L", "License", "", false, "", ∅⟩, .addOrganisation ⟨"O", "Organisation", ""⟩,
    .addSection (noted "a" ⟨[⟨"x", some "2", none⟩], List.pairwise_singleton _ _⟩),
    .addSection (noted "b" ⟨[⟨"x", some "1", some "s"⟩, ⟨"x", some "1", some "t"⟩],
      List.pairwise_pair.mpr rfl⟩)] ++
    texts.map fun (id, text) => .addNotice id text

theorem exists_noting (texts : List (String × String))
    (hlicense : (Drafting.draftOf (noting texts)).licenses.contains "L" = true)
    (hresources : (Drafting.draftOf (noting texts)).sections.toList.flatMap Section.resources =
      [⟨"x", some "2", none⟩, ⟨"x", some "1", some "s"⟩, ⟨"x", some "1", some "t"⟩]) :
    ∃ d : Descriptor, (Drafting.draftOf (noting texts)).finish "L" none = .ok d ∧
      d.notices = (Drafting.draftOf (noting texts)).notices ∧
      d.resources =
        [⟨"x", some "2", none⟩, ⟨"x", some "1", some "s"⟩, ⟨"x", some "1", some "t"⟩] := by
  obtain ⟨d, hd⟩ := Draft.exists_finish_none hlicense
  obtain ⟨_, _, -, -, rfl⟩ := Draft.finish_eq_ok_iff.mp hd
  exact ⟨_, hd, rfl, hresources⟩

/-- Of the three declarations the first of the smaller id is kept; where the greater id has no text
there is no answer. -/
theorem resourceNotices_groups_noting :
    (∃ d : Descriptor, ∃ table rs,
      (Drafting.draftOf (noting [("1", "text"), ("2", "text")])).finish "L" none = .ok d ∧
      d.resourceNotices = .ok table ∧ table.get? "text" = some rs ∧
      ⟨"x", some "1", some "s"⟩ ∈ rs ∧ ⟨"x", some "2", none⟩ ∉ rs) ∧
    ∃ d : Descriptor, (Drafting.draftOf (noting [("1", "text")])).finish "L" none = .ok d ∧
      d.resourceNotices = .error (.unknownNotice "2") := by
  constructor
  · obtain ⟨d, hd, hnotices, hresources⟩ := exists_noting [("1", "text"), ("2", "text")] rfl rfl
    have htexts : d.notices.get? "1" = some "text" ∧ d.notices.get? "2" = some "text" := by
      rw [hnotices]
      exact ⟨rfl, rfl⟩
    have hids : ∀ id, (∃ r ∈ d.resources, r.noticeId = some id) ↔ id = "2" ∨ id = "1" := by
      simp [hresources, eq_comm]
    obtain ⟨-, hgroups⟩ := resourceNotices_groups d
    obtain ⟨table, htable, hkeys, hsets⟩ := hgroups (by
      rintro id ⟨hid, hnone⟩
      rcases (hids id).mp hid with rfl | rfl
      · simp [htexts.2] at hnone
      · simp [htexts.1] at hnone)
    have hkey : "text" ∈ table.keys :=
      (hkeys _).mpr ⟨⟨"x", some "2", none⟩, "2", by simp [hresources], rfl, htexts.2⟩
    obtain ⟨rs, hrs⟩ := Option.isSome_iff_exists.mp (Table.get?_isSome.mpr hkey)
    obtain ⟨-, hkept⟩ := hsets _ _ hrs
    refine ⟨d, table, rs, hd, htable, hrs, (hkept _).mpr ⟨"1", ⟨by simp [hresources], rfl,
      htexts.1⟩, ?_, [_], [_], hresources, by simp⟩, ?_⟩
    · rintro r id ⟨hr, hid, -⟩ -
      rcases (hids id).mp ⟨r, hr, hid⟩ with rfl | rfl
      · decide
      · exact Std.le_refl _
    · intro hmem
      obtain ⟨id, ⟨-, hid, -⟩, hmin, -⟩ := (hkept _).mp hmem
      cases hid
      have hle := hmin ⟨"x", some "1", some "s"⟩ "1" ⟨by simp [hresources], rfl, htexts.1⟩ rfl
      exact absurd hle (by decide)
  · obtain ⟨d, hd, hnotices, hresources⟩ := exists_noting [("1", "text")] rfl rfl
    have hids : ∀ id, (∃ r ∈ d.resources, r.noticeId = some id) ↔ id = "2" ∨ id = "1" := by
      simp [hresources, eq_comm]
    have hlacks : d.Lacks "2" := by
      refine ⟨(hids _).mpr (.inl rfl), ?_⟩
      rw [hnotices]
      rfl
    obtain ⟨hfault, -⟩ := resourceNotices_groups d
    obtain ⟨id, herror, ⟨hid, hnone⟩, -⟩ := hfault ⟨"2", hlacks⟩
    rcases (hids id).mp hid with rfl | rfl
    · exact ⟨d, hd, herror⟩
    · rw [hnotices] at hnone
      cases hnone

end Descriptor

end LicenseAudit
