import LicenseAudit.Descriptor.Query
import LicenseAudit.Proofs.Descriptor.Declarations
import LicenseAudit.Proofs.Ordered.Arrangement
import LicenseAudit.Proofs.Ordered.Gathering

/-!
# What the index of notices holds

Resources are gathered twice: under the id of their notice as the walk meets them
(`NoticeIndex.mem_byNotice`), and under its text when the ids are resolved, the least id first
(`NoticeIndex.resolve_eq`). Both times a set keeps the first resource of a name, so under a text the
one that is kept has the least id, and is the first on the walk that has it
(`NoticeIndex.find?_resolved`).
-/

set_option autoImplicit false

namespace LicenseAudit

/-! ## Resources in the order of the walk -/

def Stop.resource? : Stop → Option Resource
  | .resource r => some r
  | .directory _ | .grant _ | .holding _ => none

/-- The resources of a descriptor in the order of the walk, once for each time that it declares
them. -/
def Descriptor.resources (d : Descriptor) : List Resource :=
  d.sections.toList.flatMap Section.resources

theorem Holding.filterMap_stops (h : Holding) :
    h.stops.filterMap Stop.resource? = h.resources.toList := by
  have hsome : Stop.resource? ∘ Stop.resource = some := rfl
  rw [stops, List.filterMap_cons_none rfl, List.filterMap_map, hsome, List.filterMap_some]

theorem Grant.filterMap_stops (g : Grant) : g.stops.filterMap Stop.resource? = g.resources := by
  rw [stops, List.filterMap_cons_none rfl, List.filterMap_flatMap]
  simp only [Holding.filterMap_stops, resources]

theorem Section.filterMap_stops (s : Section) :
    s.stops.filterMap Stop.resource? = s.resources := by
  rw [stops, List.filterMap_cons_none rfl, List.filterMap_append, List.filterMap_flatMap,
    List.filterMap_flatMap]
  simp only [Holding.filterMap_stops, Grant.filterMap_stops, resources]

theorem Descriptor.filterMap_stops (d : Descriptor) :
    d.stops.filterMap Stop.resource? = d.resources := by
  rw [stops, List.filterMap_flatMap]
  simp only [Section.filterMap_stops, resources]

/-- The resources that refer to the notice of this id. -/
def Descriptor.citing (d : Descriptor) (id : String) : List Resource :=
  d.resources.filter fun r => r.noticeId = some id

namespace NoticeIndex

/-! ## By id -/

/-- A resource under the id of its notice. -/
def citation? (r : Resource) : Option (String × List Resource) := r.noticeId.map fun id => (id, [r])

theorem byNotice_visit (t : NoticeIndex) (stop : Stop) :
    (walker.visit t stop).byNotice =
      t.byNotice.gather (stop.resource?.bind citation?).toList := by
  cases stop with
  | directory s => rfl
  | holding h => rfl
  | grant g =>
    simp only [walker]
    split <;> rfl
  | resource r =>
    simp only [walker, Stop.resource?, Option.bind_some, citation?]
    cases r.noticeId <;> rfl

theorem byNotice_foldl (stops : List Stop) (t : NoticeIndex) :
    (stops.foldl walker.visit t).byNotice =
      t.byNotice.gather ((stops.filterMap Stop.resource?).filterMap citation?) := by
  induction stops generalizing t with
  | nil => rfl
  | cons stop stops ih =>
    rw [List.foldl_cons, ih, byNotice_visit, List.filterMap_cons]
    cases stop.resource? with
    | none => rfl
    | some r =>
      rw [Option.bind_some, List.filterMap_cons]
      cases citation? r <;> rfl

theorem under_citations (id : String) (rs : List Resource) :
    Table.under id (rs.filterMap citation?) = rs.filter fun r => r.noticeId = some id := by
  induction rs with
  | nil => rfl
  | cons r rs ih =>
    rw [List.filterMap_cons, List.filter_cons, ← ih, citation?]
    cases r.noticeId with
    | none => simp
    | some id' => by_cases h : id' = id <;> simp [Table.under, h]

/-- The walk gathers the resources under the ids of their notices. -/
theorem mem_byNotice {d : Descriptor} {id : String} {rs : Resources} :
    (id, rs) ∈ (d.walk walker .start).byNotice ↔
      (∃ r ∈ d.resources, r.noticeId = some id) ∧ rs = .ofList (d.citing id) := by
  have hwalk : (d.walk walker .start).byNotice = .gather ∅ (d.resources.filterMap citation?) := by
    rw [d.walk_eq_foldl_stops fun _ _ => rfl, byNotice_foldl, d.filterMap_stops]
    rfl
  have hid : id ∈ (d.resources.filterMap citation?).map Prod.fst ↔
      ∃ r ∈ d.resources, r.noticeId = some id := by
    simp [citation?]
  rw [hwalk, Table.mem_gather, under_citations, hid, Descriptor.citing]

/-! ## By text -/

section Resolving

variable {texts : Table String}

/-- The resources of a notice under its text. -/
def resolved? (texts : Table String) (e : String × Resources) : Option (String × List Resource) :=
  (texts.get? e.1).map fun text => (text, e.2.toList)

/-- The first notice without a text is a fault; otherwise resources are gathered under the texts. -/
theorem resolve_eq (es : List (String × Resources)) (t : Table Resources) :
    es.foldlM (resolveNotice texts) t =
      match es.find? fun e => (texts.get? e.1).isNone with
      | some e => .error (.unknownNotice e.1)
      | none => .ok (t.gather (es.filterMap (resolved? texts))) := by
  induction es generalizing t with
  | nil => rfl
  | cons e es ih =>
    rw [List.foldlM_cons, resolveNotice, List.find?_cons, List.filterMap_cons, resolved?]
    cases texts.get? e.1 with
    | none => rfl
    | some text => exact ih _

variable {t : NoticeIndex}

theorem resourceNotices_of_lacking {e : String × Resources} (he : e ∈ t.byNotice)
    (hlacks : texts.get? e.1 = none) :
    ∃ e ∈ t.byNotice, t.resourceNotices texts = .error (.unknownNotice e.1) ∧
      texts.get? e.1 = none ∧ ∀ e' ∈ t.byNotice, texts.get? e'.1 = none → e.1 ≤ e'.1 := by
  rw [resourceNotices, resolve_eq]
  cases hfind : t.byNotice.toList.find? fun e => (texts.get? e.1).isNone with
  | none => simpa [hlacks] using List.find?_eq_none.mp hfind e he
  | some least =>
    rw [List.find?_eq_findSome?_guard, Table.findSome?_toList_eq_some_iff] at hfind
    obtain ⟨e', he', hguard, hmin⟩ := hfind
    obtain ⟨rfl, hnone⟩ := Option.guard_eq_some_iff.mp hguard
    refine ⟨e', he', rfl, Option.isNone_iff_eq_none.mp hnone, fun e'' he'' hlacks => ?_⟩
    exact hmin e'' he'' (by simp [hlacks])

/-- The resources under the texts of their notices. -/
def resolved (t : NoticeIndex) (texts : Table String) : Table Resources :=
  .gather ∅ (t.byNotice.toList.filterMap (resolved? texts))

theorem resourceNotices_eq_ok (h : ∀ e ∈ t.byNotice, texts.get? e.1 ≠ none) :
    t.resourceNotices texts = .ok (t.resolved texts) := by
  have hfind : (t.byNotice.toList.find? fun e => (texts.get? e.1).isNone) = none := by
    apply List.find?_eq_none.mpr
    intro e he
    simpa using h e he
  rw [resourceNotices, resolve_eq, hfind, resolved]

theorem mem_keys_resolved {text : String} :
    text ∈ (t.resolved texts).keys ↔ ∃ e ∈ t.byNotice, texts.get? e.1 = some text := by
  rw [resolved, Table.mem_keys_gather]
  simp [resolved?, SortedBy.mem_iff_mem_toList]

theorem under_resolved (text : String) (es : List (String × Resources)) :
    Table.under text (es.filterMap (resolved? texts)) =
      es.flatMap fun e => if texts.get? e.1 = some text then e.2.toList else [] := by
  induction es with
  | nil => rfl
  | cons e es ih =>
    rw [List.filterMap_cons, List.flatMap_cons, ← ih, resolved?]
    cases texts.get? e.1 with
    | none => simp
    | some text' => by_cases h : text' = text <;> simp [Table.under, h]

theorem eq_of_get?_resolved {text : String} {rs : Resources}
    (h : (t.resolved texts).get? text = some rs) :
    rs = .ofList (t.byNotice.toList.flatMap fun e =>
      if texts.get? e.1 = some text then e.2.toList else []) := by
  rw [← under_resolved]
  exact (Table.mem_gather.mp (Table.mem_iff_get?.mpr h)).2

theorem contains_resolved {text name : String} {rs : Resources}
    (h : (t.resolved texts).get? text = some rs) :
    rs.contains name = true ↔
      ∃ e ∈ t.byNotice, texts.get? e.1 = some text ∧ e.2.contains name = true := by
  rw [eq_of_get?_resolved h, SortedBy.contains_ofList]
  simp only [List.mem_flatMap, List.mem_ite_nil_right, SortedBy.contains_iff]
  constructor
  · rintro ⟨r, ⟨e, he, htext, hr⟩, hname⟩
    exact ⟨e, he, htext, r, hr, hname⟩
  · rintro ⟨e, he, htext, r, hr, hname⟩
    exact ⟨r, ⟨e, he, htext, hr⟩, hname⟩

/-- Under a text a resource is kept from the least id that has the text and the name. -/
theorem find?_resolved {text name : String} {rs : Resources} {r : Resource}
    (h : (t.resolved texts).get? text = some rs) :
    rs.find? name = some r ↔
      ∃ e ∈ t.byNotice, texts.get? e.1 = some text ∧ e.2.find? name = some r ∧
        ∀ e' ∈ t.byNotice,
          texts.get? e'.1 = some text → e'.2.contains name = true → e.1 ≤ e'.1 := by
  have hinner : ∀ e : String × Resources,
      ((if texts.get? e.1 = some text then e.2.toList else []).find? fun r => r.name = name) =
        if texts.get? e.1 = some text then e.2.find? name else none := by
    intro e
    split
    · rw [← SortedBy.find?_ofList, SortedBy.ofList_toList]
    · rfl
  rw [eq_of_get?_resolved h, SortedBy.find?_ofList, List.find?_flatMap]
  simp only [hinner]
  rw [Table.findSome?_toList_eq_some_iff]
  simp only [Option.ite_none_right_eq_some, and_assoc, SortedBy.contains]
  refine exists_congr fun e => and_congr_right fun _ => and_congr_right fun _ =>
    and_congr_right fun _ => forall₂_congr fun e' _ => ?_
  by_cases htext : texts.get? e'.1 = some text <;> simp [htext]

end Resolving

end NoticeIndex

end LicenseAudit
