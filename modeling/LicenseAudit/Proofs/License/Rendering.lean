import LicenseAudit.License.Basic
import LicenseAudit.Proofs.License.Offsets
import LicenseAudit.Proofs.Ordered.Insertion

/-!
# What a license text becomes

With parameters that a license accepts its text is the template filled, and accepted parameters have
the expected names and no others (`accepts_iff`). So the template alone says what the parts of the
text are, and another value changes nothing but the fields of its parameter (`text_fills_parts`).

Whether the field of an expected parameter is filled depends on what is in front of it
(`text_at_field`). Behind a closed text it is. Otherwise **the opening that was left open takes the
field into a name of its own**, and the parameter's value does not appear there
(`field_behind_opening_left`).
-/

set_option autoImplicit false

namespace LicenseAudit

namespace License

open Template

variable {l : License} {values : Parameters}

theorem checkParameters_eq_ok_iff : l.checkParameters values = .ok () ↔ l.Accepts values := by
  unfold checkParameters
  split <;> simp [*]

theorem accepts_iff :
    l.Accepts values ↔ ∀ name, (values.get? name).isSome = true ↔ name ∈ l.expected := by
  have hcontains : ∀ name, values.contains name = true ↔ (values.get? name).isSome = true := by
    intro name
    rw [Table.get?, Option.isSome_map]
    exact Iff.rfl
  simp only [Accepts, missing, unexpected, List.filter_eq_nil_iff, Bool.not_eq_true',
    Bool.not_eq_false, hcontains, NameSet.contains_eq_true_iff, Table.get?_isSome]
  constructor
  · intro h name
    exact ⟨h.2 name, h.1 name⟩
  · intro h
    exact ⟨fun name hname => (h name).mpr hname, fun name hname => (h name).mp hname⟩

theorem text_eq (h : l.checkParameters values = .ok ()) :
    l.text values = .ok (String.ofList (render values l.template.toList)) := by
  rw [text, h]
  rfl

theorem get?_of_accepts (h : l.checkParameters values = .ok ()) {name : String} :
    (∃ value, values.get? name = some value) ↔ name ∈ l.expected := by
  rw [← Option.isSome_iff_exists]
  exact accepts_iff.mp (checkParameters_eq_ok_iff.mp h) name

theorem get?_eq_none_of_accepts (h : l.checkParameters values = .ok ()) {name : String} :
    values.get? name = none ↔ name ∉ l.expected := by
  rw [← get?_of_accepts h, Option.eq_none_iff_forall_ne_some, not_exists]

/-- Where two accepted tables differ, both have a value. -/
theorem exists_values_of_ne {values' : Parameters} (h : l.checkParameters values = .ok ())
    (h' : l.checkParameters values' = .ok ()) {name : String}
    (hne : values.get? name ≠ values'.get? name) :
    ∃ value value', values.get? name = some value ∧ values'.get? name = some value' ∧
      value ≠ value' := by
  by_cases hname : name ∈ l.expected
  · obtain ⟨value, hvalue⟩ := (get?_of_accepts h).mpr hname
    obtain ⟨value', hvalue'⟩ := (get?_of_accepts h').mpr hname
    rw [hvalue, hvalue'] at hne
    exact ⟨value, value', hvalue, hvalue', fun heq => hne (by rw [heq])⟩
  · rw [(get?_eq_none_of_accepts h).mpr hname, (get?_eq_none_of_accepts h').mpr hname] at hne
    exact absurd rfl hne

/-- A template comes apart in one way, whatever the parameters. Its text is what its parts become,
one after the other, and a loop over byte offsets writes the same without a cut that fails. With
other parameters only the fields of those with another value become something else. -/
theorem text_fills_parts (l : License) :
    ∃ t : Template, (∀ t' : Template, t'.Proper ∧ t'.text = l.template.toList ↔ t' = t) ∧
      (∀ values, l.checkParameters values = .ok () →
        l.text values = .ok (String.ofList (t.parts.flatMap (Part.filled values))) ∧
          renderAt? values l.template.toList = some (t.parts.flatMap (Part.filled values))) ∧
      ∀ values values', l.checkParameters values = .ok () → l.checkParameters values' = .ok () →
        ∀ p ∈ t.parts, p.filled values ≠ p.filled values' →
          ∃ (name : String) (value value' : String), p = .field name.toList ∧
            values.get? name = some value ∧ values'.get? name = some value' ∧ value ≠ value' := by
  refine ⟨ofText l.template.toList, fun t' => proper_text_iff, ?_, ?_⟩
  · intro values h
    rw [← fill_eq_flatMap]
    exact ⟨text_eq h, renderAt?_eq values _⟩
  · intro values values' h h' p _ hp
    obtain ⟨name, rfl, hne⟩ := Part.filled_ne hp
    obtain ⟨value, value', hvalues⟩ := exists_values_of_ne h h' hne
    exact ⟨String.ofList name, value, value', by simp, hvalues⟩

/-- A text with two parameters, a field of neither, and an opening at the end that stays open. -/
def terms : License :=
  ⟨"T", "Terms", "", false, "$$\x7ba\x7dé$\x7bb\x7d$\x7bc\x7d$\x7b", .ofList ["a", "b"]⟩

def termParts : Template :=
  .field ['$'] ['a'] (.field ['é'] ['b'] (.field [] ['c'] (.unclosed [] [])))

def termValues (a : String) : Parameters := .ofList [("a", a), ("b", "x")]

/-- The value of one parameter may look like the field of the other. -/
theorem text_fills_parts_terms :
    (termParts.Proper ∧ termParts.text = terms.template.toList) ∧
      terms.checkParameters (termValues "$\x7bb\x7d") = .ok () ∧
      terms.text (termValues "$\x7bb\x7d") = .ok "$$\x7bb\x7déx$\x7bc\x7d$\x7b" ∧
      renderAt? (termValues "$\x7bb\x7d") terms.template.toList =
        some "$$\x7bb\x7déx$\x7bc\x7d$\x7b".toList ∧
      ∃ (name : String) (value value' : String), Part.field ['a'] = .field name.toList ∧
        (termValues "$\x7bb\x7d").get? name = some value ∧
        (termValues "y").get? name = some value' ∧ value ≠ value' := by
  have hproper : termParts.Proper ∧ termParts.text = terms.template.toList := by
    refine ⟨⟨?_, ?_, ?_, ?_, ?_, ?_, ?_, ?_⟩, ?_⟩ <;> decide
  have haccepted : terms.checkParameters (termValues "$\x7bb\x7d") = .ok () := by decide
  have haccepted' : terms.checkParameters (termValues "y") = .ok () := by decide
  obtain ⟨t, hunique, hfills, hdiffers⟩ := text_fills_parts terms
  obtain rfl := (hunique termParts).mp hproper
  obtain ⟨htext, hloop⟩ := hfills _ haccepted
  refine ⟨hproper, haccepted, htext, hloop, ?_⟩
  exact hdiffers _ _ haccepted haccepted' (.field ['a']) (by decide) (by decide)

/-! ## One field -/

/-- Behind a closed text the field of an expected parameter becomes the parameter's value. Behind
another text it is part of a longer name, from the first opening that was left open, and unless that
is the name of a parameter too, the field is left as it is. -/
theorem text_at_field (h : l.checkParameters values = .ok ()) {name : String}
    (hname : name ∈ l.expected) (hbrace : '}' ∉ name.toList) {u v : List Char}
    (htemplate : l.template.toList = u ++ opening ++ name.toList ++ '}' :: v) :
    ∃ value, values.get? name = some value ∧
      (Closed u → l.text values =
        .ok (String.ofList (render values u ++ value.toList ++ render values v))) ∧
      (¬Closed u → ∃ before rest, u = before ++ opening ++ rest ∧ '}' ∉ rest ∧ Closed before ∧
        l.text values = .ok (String.ofList (render values before ++
          fieldText values (rest ++ opening ++ name.toList) ++ render values v)) ∧
        (String.ofList (rest ++ opening ++ name.toList) ∉ l.expected →
          l.text values = .ok (String.ofList (render values u ++
            (opening ++ name.toList ++ ['}']) ++ render values v)))) := by
  obtain ⟨value, hvalue⟩ := (get?_of_accepts h).mpr hname
  refine ⟨value, hvalue, ?_, ?_⟩
  · intro hu
    rw [text_eq h, htemplate, render_append_field hu hbrace, fieldText, String.ofList_toList,
      hvalue]
  · intro hu
    obtain ⟨before, rest, rfl, hrest, hbefore⟩ := (closed_or_open u).resolve_left hu
    have htext : l.text values = .ok (String.ofList (render values before ++
        fieldText values (rest ++ opening ++ name.toList) ++ render values v)) := by
      rw [text_eq h, htemplate, render_append_taken hbefore hrest hbrace]
    refine ⟨before, rest, rfl, hrest, hbefore, htext, ?_⟩
    intro hunexpected
    have hnone := (get?_eq_none_of_accepts h).mpr hunexpected
    rw [htext, fieldText, hnone, render_append_unclosed hbefore hrest]
    simp only [List.append_assoc]

theorem text_at_field_terms :
    ∃ value, (termValues "y").get? "b" = some value ∧
      terms.text (termValues "y") = .ok (String.ofList
        (render (termValues "y") "$$\x7ba\x7dé".toList ++ value.toList ++
          render (termValues "y") "$\x7bc\x7d$\x7b".toList)) := by
  have haccepted : terms.checkParameters (termValues "y") = .ok () := by decide
  have hexpected : "b" ∈ terms.expected := by decide
  have htemplate : terms.template.toList = "$$\x7ba\x7dé".toList ++ opening ++ "b".toList ++
      '}' :: "$\x7bc\x7d$\x7b".toList := rfl
  have hclosed : Closed (['$', '$', '{', 'a'] ++ '}' :: ['é']) := by
    rw [closed_append_iff]
    have hliteral : Literal ['é'] := by decide
    exact hliteral.closed
  obtain ⟨value, hvalue, hfilled, -⟩ := text_at_field haccepted hexpected (by decide) htemplate
  exact ⟨value, hvalue, hfilled hclosed⟩

/-- The opening before a field stays open, and the field is left as it is. -/
def unfinished : License := ⟨"U", "Unfinished", "", false, "$\x7b$\x7ba\x7d", .ofList ["a"]⟩

theorem field_behind_opening_left :
    ∃ values : Parameters, unfinished.checkParameters values = .ok () ∧
      "a" ∈ unfinished.expected ∧ (∀ c ∈ "a".toList, c ≠ '$' ∧ c ≠ '{' ∧ c ≠ '}') ∧
      unfinished.template.toList = opening ++ opening ++ "a".toList ++ '}' :: [] ∧
      values.get? "a" = some "X" ∧
      unfinished.text values = .ok "$\x7b$\x7ba\x7d" ∧
      unfinished.text values ≠
        .ok (String.ofList (render values opening ++ "X".toList ++ render values [])) := by
  refine ⟨.ofList [("a", "X")], ?_, ?_, ?_, ?_, ?_, ?_, ?_⟩
  · decide
  · decide
  · simp
  · rfl
  · rfl
  · decide +kernel
  · decide +kernel

end License

end LicenseAudit
