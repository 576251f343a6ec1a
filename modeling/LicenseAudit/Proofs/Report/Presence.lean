import LicenseAudit.Proofs.Report.Additions
import LicenseAudit.Proofs.Report.Json

/-!
# Which buckets a report has

Two reports with the same locations under each kind can still differ, in which buckets they have: an
empty bucket is written, and an absent one is not. A fresh report has all four, an addition makes
the bucket of its kind even where it adds no location, and no call takes a bucket away. A report
that is read from a text has only the buckets that the text names.

So the kinds mentioned in the history of a report are those that it has a bucket for
(`History.has_iff`), and together with what is reported they are all there is to a report
(`eq_iff_has`).
-/

set_option autoImplicit false

namespace LicenseAudit

theorem IssueKind.eq_name_of_ofName? {name : String} {k : IssueKind} (h : ofName? name = some k) :
    name = k.name := by
  have hfound := List.find?_some h
  exact (beq_iff_eq.mp hfound).symm

theorem IssueKind.name_injective {j k : IssueKind} (h : j.name = k.name) : j = k := by
  have hj := ofName?_name j
  rw [h, ofName?_name] at hj
  exact (Option.some.inj hj).symm

namespace Report

/-- The report has a bucket for this kind, with something in it or empty. -/
def Has (r : Report) (k : IssueKind) : Prop := (r.bucket? k).isSome = true

theorem bucket?_of_has {r : Report} {k : IssueKind} (h : r.Has k) :
    r.bucket? k = some (r.get k) := by
  obtain ⟨ls, hls⟩ := Option.isSome_iff_exists.mp h
  rw [get_of_bucket hls, hls]

/-- Reports with the same locations are equal if they have the same buckets. -/
theorem eq_iff_has {r s : Report} (h : ∀ k, r.get k = s.get k) :
    r = s ↔ ∀ k, r.Has k ↔ s.Has k := by
  constructor
  · intro heq k
    rw [heq]
  · intro hhas
    apply ext_bucket?
    intro k
    by_cases hk : r.Has k
    · rw [bucket?_of_has hk, bucket?_of_has ((hhas k).mp hk), h k]
    · have hr : r.bucket? k = none := Option.not_isSome_iff_eq_none.mp hk
      have hs : s.bucket? k = none :=
        Option.not_isSome_iff_eq_none.mp fun hs => hk ((hhas k).mpr hs)
      rw [hr, hs]

/-- A valid report has the same reported as a fresh one. -/
theorem get_eq_get_fresh {r : Report} (h : r.isValid = true) (k : IssueKind) :
    r.get k = fresh.get k := by
  apply SortedBy.ext_mem
  intro l
  exact iff_of_false (isValid_iff.mp h k l) not_mem_get_fresh

theorem has_fresh (k : IssueKind) : fresh.Has k := by cases k <;> rfl

theorem not_has_bare (k : IssueKind) : ¬bare.Has k := by cases k <;> exact Bool.false_ne_true

theorem has_setBucket {r : Report} {k j : IssueKind} {ls : Locations} :
    (r.setBucket k ls).Has j ↔ r.Has j ∨ k = j := by
  unfold Has
  rw [bucket?_setBucket]
  by_cases h : j = k
  · simp [h]
  · simp [h, Ne.symm h]

theorem has_after {r : Report} {as : List Addition} {k : IssueKind} :
    (r.after as).Has k ↔ r.Has k ∨ ∃ a ∈ as, a.kind = k := by
  refine foldl_iff (Q := fun r => r.Has k) fun r a => ?_
  rw [perform_eq]
  exact has_setBucket

/-! ## Reading from a text -/

/-- The text is an object with a member for this kind. -/
def Names (s : String) (k : IssueKind) : Prop :=
  ∃ members, Json.read? s = some (.object members) ∧ .text k.name ∈ members.map (·.1)

theorem has_of_readMember {r s : Report} {m : JsonText × Json} {k : IssueKind}
    (h : r.readMember m = some s) : s.Has k ↔ r.Has k ∨ m.1 = .text k.name := by
  unfold readMember at h
  split at h
  · rename_i name items
    obtain ⟨j, hj, h⟩ := Option.bind_eq_some_iff.mp h
    obtain ⟨ls, -, h⟩ := Option.bind_eq_some_iff.mp h
    cases h
    have hname : j = k ↔ JsonText.text name = .text k.name := by
      rw [IssueKind.eq_name_of_ofName? hj, JsonText.text.injEq]
      exact ⟨fun h => h ▸ rfl, IssueKind.name_injective⟩
    rw [has_setBucket, hname]
  · cases h

theorem has_of_foldlM {members : List (JsonText × Json)} {r s : Report} {k : IssueKind}
    (h : members.foldlM readMember r = some s) :
    s.Has k ↔ r.Has k ∨ .text k.name ∈ members.map (·.1) := by
  -- a kind that is named again has its bucket replaced, and so it still has one
  induction members generalizing r with
  | nil =>
    cases h
    simp
  | cons m members ih =>
    obtain ⟨t, ht, h⟩ := Option.bind_eq_some_iff.mp h
    rw [ih h, has_of_readMember ht, List.map_cons, List.mem_cons, or_assoc, eq_comm (a := m.1)]

/-- A report that was read has the buckets that its text names. -/
theorem has_ofJsonText? {s : String} {r : Report} {k : IssueKind} (h : ofJsonText? s = some r) :
    r.Has k ↔ Names s k := by
  obtain ⟨j, hj, h⟩ := Option.bind_eq_some_iff.mp h
  unfold Names
  cases j with
  | object members =>
    rw [has_of_foldlM h, or_iff_right (not_has_bare k), hj]
    simp
  | _ => cases h

theorem toJsonText_injective {r s : Report} (h : r.toJsonText = s.toJsonText) : r = s := by
  have hr := ofJsonText?_toJsonText r
  rw [h, ofJsonText?_toJsonText] at hr
  exact (Option.some.inj hr).symm

/-! ## What a report was made by -/

/-- How a report came about: it was read from a text, or it was fresh, and then it was added to. -/
structure History where
  text? : Option String
  additions : List Addition

namespace History

/-- What the report was before the additions. -/
def start? (h : History) : Option Report :=
  match h.text? with
  | none => some fresh
  | some s => ofJsonText? s

def report? (h : History) : Option Report := h.start?.map (·.after h.additions)

/-- The text that the report was read from, if there was one, names the kind, or there was an
addition under it, even of no location. -/
def Mentions (h : History) (k : IssueKind) : Prop :=
  (∀ s ∈ h.text?, Names s k) ∨ ∃ a ∈ h.additions, a.kind = k

theorem has_iff {h : History} {r : Report} (hr : h.report? = some r) (k : IssueKind) :
    r.Has k ↔ h.Mentions k := by
  obtain ⟨start, hstart, rfl⟩ := Option.map_eq_some_iff.mp hr
  rw [has_after]
  refine or_congr_left ?_
  unfold start? at hstart
  split at hstart
  · rename_i hnone
    cases hstart
    simp [hnone, has_fresh]
  · rename_i s hsome
    simp [hsome, has_ofJsonText? hstart]

/-- Reports with the same locations under each kind are equal, and are written alike, exactly if the
same kinds are mentioned in their histories. A valid report is the fresh one exactly if all are. -/
theorem equal_iff_mentions {h j : History} {r s : Report} (hr : h.report? = some r)
    (hs : j.report? = some s) :
    ((∀ k, r.get k = s.get k) →
      (r = s ↔ ∀ k, h.Mentions k ↔ j.Mentions k) ∧
        (r.toJsonText = s.toJsonText ↔ ∀ k, h.Mentions k ↔ j.Mentions k)) ∧
      (r.isValid = true → (r = fresh ↔ ∀ k, h.Mentions k)) := by
  constructor
  · intro hget
    have heq : r = s ↔ ∀ k, h.Mentions k ↔ j.Mentions k := by
      rw [eq_iff_has hget]
      exact forall_congr' fun k => iff_congr (has_iff hr k) (has_iff hs k)
    have htext : r.toJsonText = s.toJsonText ↔ r = s :=
      ⟨toJsonText_injective, congrArg toJsonText⟩
    exact ⟨heq, htext.trans heq⟩
  · intro hvalid
    rw [eq_iff_has (get_eq_get_fresh hvalid)]
    refine forall_congr' fun k => ?_
    rw [has_iff hr k, iff_true_right (has_fresh k)]

theorem mentions_of_fresh {h : History} (hnone : h.text? = none) (k : IssueKind) : h.Mentions k :=
  .inl fun s hs => by
    rw [hnone] at hs
    cases hs

/-- Read from an empty object, and made whole by adding nothing under each kind. -/
def completed : History := ⟨some "\x7b\x7d", IssueKind.all.map fun k => .several k []⟩

theorem equal_iff_mentions_completed :
    completed.report? = some (bare.after completed.additions) ∧
      (bare.after completed.additions).isValid = true ∧
      (∀ k, (bare.after completed.additions).get k = fresh.get k) ∧
      bare.after completed.additions = fresh ∧
      (bare.after completed.additions).toJsonText = fresh.toJsonText := by
  have hreport : completed.report? = some (bare.after completed.additions) := by decide +kernel
  have hvalid : (bare.after completed.additions).isValid = true := by decide +kernel
  have hall : ∀ k, completed.Mentions k := by
    intro k
    exact .inr ⟨.several k [], List.mem_map.mpr ⟨k, k.mem_all, rfl⟩, rfl⟩
  have hget := get_eq_get_fresh hvalid
  obtain ⟨hsame, hfresh⟩ := equal_iff_mentions (j := ⟨none, []⟩) hreport rfl
  refine ⟨hreport, hvalid, hget, (hfresh hvalid).mpr hall, (hsame hget).2.mpr ?_⟩
  intro k
  exact iff_of_true (hall k) (mentions_of_fresh rfl k)

/-- A report that is read from an empty object has nothing in it, like a fresh one; but it is
another report, and it is written in another way. -/
theorem unmentioned_differs :
    report? ⟨some "\x7b\x7d", []⟩ = some bare ∧ report? ⟨none, []⟩ = some fresh ∧
      (∀ k, bare.get k = fresh.get k) ∧ bare.isValid = true ∧ bare ≠ fresh ∧
      bare.toJsonText ≠ fresh.toJsonText := by
  have hne : bare ≠ fresh := by decide
  refine ⟨by decide +kernel, rfl, ?_, rfl, hne, fun h => hne (toJsonText_injective h)⟩
  intro k
  cases k <;> rfl

end History

end Report

end LicenseAudit
