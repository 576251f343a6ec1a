import Mathlib.Data.List.Infix
import LicenseAudit.License.Template

/-!
# How a license text comes apart

A template is `Proper` if it is taken apart as far as it can be: no opening is left in its literal
text, and no closing brace in a name or after an opening that stays open. **A text has one proper
template, the one that is read from it** (`proper_text_iff`). That rests on the first opening: no
literal text can hide it, since an opening does not overlap another (`splitOpening_append`).

What is in front of a field has a say in whether it is one. A text is `Closed` if a brace comes
after each of its openings; only then is a field behind it read as it stands
(`render_append_field`). Otherwise the first opening that no brace comes after takes everything up
to the brace of that field as its name (`closed_or_open`).
-/

set_option autoImplicit false

namespace LicenseAudit

namespace Template

/-- There is no opening in the text. -/
def Literal (cs : List Char) : Prop := ¬opening <:+: cs

instance (cs : List Char) : Decidable (Literal cs) := inferInstanceAs (Decidable (¬_))

/-- Taken apart as far as it can be. -/
def Proper : Template → Prop
  | plain text => Literal text
  | unclosed text rest => Literal text ∧ '}' ∉ rest
  | field text name following => Literal text ∧ '}' ∉ name ∧ following.Proper

variable {cs text name rest after u v : List Char} {values : Parameters}

/-! ## The first opening -/

theorem opening_prefix_cons_iff {c : Char} :
    opening <+: c :: cs ↔ ∃ rest, c = '$' ∧ cs = '{' :: rest := by
  constructor
  · intro h
    obtain ⟨rest, hrest⟩ := h
    simp only [opening, List.cons_append, List.nil_append, List.cons.injEq] at hrest
    exact ⟨rest, hrest.1.symm, hrest.2.symm⟩
  · intro h
    obtain ⟨rest, rfl, rfl⟩ := h
    exact ⟨rest, rfl⟩

theorem literal_nil : Literal [] := by simp [Literal, opening]

theorem literal_cons_iff {c : Char} : Literal (c :: cs) ↔ ¬opening <+: c :: cs ∧ Literal cs := by
  rw [Literal, List.infix_cons_iff, not_or, Literal]

/-- No opening begins in a literal text and ends behind it. -/
theorem Literal.not_prefix_append {c : Char} (h : Literal (c :: text)) :
    ¬opening <+: c :: (text ++ opening ++ rest) := by
  intro hprefix
  obtain ⟨more, rfl, hmore⟩ := opening_prefix_cons_iff.mp hprefix
  cases text with
  | nil => simp [opening] at hmore
  | cons d text =>
    simp only [List.cons_append, List.cons.injEq] at hmore
    exact (literal_cons_iff.mp h).1 (opening_prefix_cons_iff.mpr ⟨text, rfl, by rw [hmore.1]⟩)

theorem splitOpening_cons {c : Char} (h : ¬opening <+: c :: cs) :
    splitOpening (c :: cs) = (c :: (splitOpening cs).1, (splitOpening cs).2) :=
  splitOpening.eq_3 c cs fun rest hc hcs => h (opening_prefix_cons_iff.mpr ⟨rest, hc, hcs⟩)

theorem splitOpening_literal (h : Literal cs) : splitOpening cs = (cs, none) := by
  induction cs with
  | nil => rfl
  | cons c cs ih =>
    obtain ⟨hc, hcs⟩ := literal_cons_iff.mp h
    rw [splitOpening_cons hc, ih hcs]

theorem splitOpening_append (h : Literal text) :
    splitOpening (text ++ opening ++ rest) = (text, some rest) := by
  induction text with
  | nil => rfl
  | cons c text ih =>
    show splitOpening (c :: (text ++ opening ++ rest)) = _
    rw [splitOpening_cons h.not_prefix_append, ih (literal_cons_iff.mp h).2]

/-- The text before the first opening is literal, and nothing is lost at the split. -/
theorem splitOpening_spec (cs : List Char) :
    Literal (splitOpening cs).1 ∧ ((splitOpening cs).2 = none → (splitOpening cs).1 = cs) ∧
      ∀ rest, (splitOpening cs).2 = some rest → (splitOpening cs).1 ++ opening ++ rest = cs := by
  fun_induction splitOpening cs with
  | case1 => simp [literal_nil]
  | case2 rest => simp [literal_nil, opening]
  | case3 c cs h ih =>
    obtain ⟨hliteral, hnone, hsome⟩ := ih
    refine ⟨literal_cons_iff.mpr ⟨?_, hliteral⟩, ?_, ?_⟩
    · intro hprefix
      obtain ⟨rest, hc, hrest⟩ := opening_prefix_cons_iff.mp hprefix
      -- a brace right after the dollar sign would have been one in the text
      cases htail : (splitOpening cs).2 with
      | none => exact h rest hc (by rw [← hnone htail, hrest])
      | some more =>
        exact h (rest ++ opening ++ more) hc (by rw [← hsome more htail, hrest]; rfl)
    · intro htail
      rw [hnone htail]
    · intro rest htail
      have hrest := hsome rest htail
      simp only [List.cons_append, hrest]

/-! ## The first closing brace -/

theorem splitClosing_of_not_mem (h : '}' ∉ cs) : splitClosing cs = none := by
  fun_induction splitClosing cs with
  | case1 => rfl
  | case2 rest => simp at h
  | case3 c cs _ ih => simp [ih (List.not_mem_of_not_mem_cons h)]

theorem splitClosing_append (h : '}' ∉ name) :
    splitClosing (name ++ '}' :: after) = some (name, after) := by
  induction name with
  | nil => rfl
  | cons c name ih =>
    rw [List.mem_cons, not_or] at h
    have hc : c = '}' → False := fun he => h.1 he.symm
    rw [List.cons_append, splitClosing.eq_3 c _ hc, ih h.2]
    rfl

/-! ## One proper template for each text -/

theorem ofText_eq (cs : List Char) :
    ofText cs = match (splitOpening cs).2 with
      | none => .plain (splitOpening cs).1
      | some rest => match splitClosing rest with
        | none => .unclosed (splitOpening cs).1 rest
        | some (name, after) => .field (splitOpening cs).1 name (ofText after) := by
  rw [ofText]
  split <;> rename_i h <;> simp only [h]
  split <;> rename_i h' <;> simp only [h']

theorem ofText_literal (h : Literal cs) : ofText cs = .plain cs := by
  rw [ofText_eq, splitOpening_literal h]

theorem ofText_unclosed (h : Literal text) (hrest : '}' ∉ rest) :
    ofText (text ++ opening ++ rest) = .unclosed text rest := by
  rw [ofText_eq, splitOpening_append h]
  simp only [splitClosing_of_not_mem hrest]

theorem ofText_field (h : Literal text) (hname : '}' ∉ name) :
    ofText (text ++ opening ++ (name ++ '}' :: after)) = .field text name (ofText after) := by
  rw [ofText_eq, splitOpening_append h]
  simp only [splitClosing_append hname]

theorem text_field {following : Template} :
    (field text name following).text = text ++ opening ++ (name ++ '}' :: following.text) := by
  simp [Template.text]

/-- What is read from a proper template's text is the template. -/
theorem ofText_text {t : Template} (h : t.Proper) : ofText t.text = t := by
  induction t with
  | plain text => exact ofText_literal h
  | unclosed text rest => exact ofText_unclosed h.1 h.2
  | field text name following ih =>
    obtain ⟨htext, hname, hfollowing⟩ := h
    rw [text_field, ofText_field htext hname, ih hfollowing]

/-- A text is literal, or splits at its first opening, where a brace may come after it or not. -/
theorem text_cases (cs : List Char) :
    Literal cs ∨ (∃ text rest, cs = text ++ opening ++ rest ∧ Literal text ∧ '}' ∉ rest) ∨
      ∃ text name after, cs = text ++ opening ++ (name ++ '}' :: after) ∧ Literal text ∧
        '}' ∉ name := by
  obtain ⟨hliteral, hnone, hsome⟩ := splitOpening_spec cs
  cases h : (splitOpening cs).2 with
  | none => exact .inl (hnone h ▸ hliteral)
  | some rest =>
    have hcs := hsome rest h
    by_cases hrest : '}' ∈ rest
    · obtain ⟨name, after, rfl, hname⟩ := List.eq_append_cons_of_mem hrest
      exact .inr (.inr ⟨_, name, after, hcs.symm, hliteral, hname⟩)
    · exact .inr (.inl ⟨_, rest, hcs.symm, hliteral, hrest⟩)

theorem exists_proper (cs : List Char) : ∃ t : Template, t.Proper ∧ t.text = cs := by
  induction hn : cs.length using Nat.strongRecOn generalizing cs with
  | ind n ih =>
    subst hn
    rcases text_cases cs with h | ⟨text, rest, rfl, h⟩ | ⟨text, name, after, rfl, htext, hname⟩
    · exact ⟨.plain cs, h, rfl⟩
    · exact ⟨.unclosed text rest, h, rfl⟩
    · obtain ⟨t, ht, rfl⟩ := ih after.length (by simp; omega) after rfl
      exact ⟨.field text name t, ⟨htext, hname, ht⟩, text_field⟩

/-- The one proper template of a text is the one read from it. -/
theorem proper_text_iff {t : Template} : t.Proper ∧ t.text = cs ↔ t = ofText cs := by
  constructor
  · rintro ⟨h, rfl⟩
    exact (ofText_text h).symm
  · rintro rfl
    obtain ⟨t, h, rfl⟩ := exists_proper cs
    rw [ofText_text h]
    exact ⟨h, rfl⟩

/-! ## Fields behind a text -/

/-- A closing brace comes after each opening of the text. -/
def Closed (cs : List Char) : Prop := ∀ before rest, cs = before ++ opening ++ rest → '}' ∈ rest

theorem Literal.closed (h : Literal cs) : Closed cs := by
  rintro before rest rfl
  exact absurd ⟨before, rest, rfl⟩ h

/-- A brace at the end of what comes before leaves no opening of it without one. -/
theorem closed_append_iff : Closed (u ++ '}' :: v) ↔ Closed v := by
  constructor
  · rintro h before rest rfl
    exact h (u ++ '}' :: before) rest (by simp)
  · intro h before rest heq
    rw [List.append_assoc, List.append_eq_append_iff] at heq
    rcases heq with ⟨more, -, hmore⟩ | ⟨more, -, hmore⟩
    · cases more with
      | nil => simp [opening] at hmore
      | cons c more =>
        simp only [List.cons_append, List.cons.injEq] at hmore
        exact h more rest (by rw [hmore.2, List.append_assoc])
    · have hbrace : '}' ∈ opening ++ rest := by
        rw [hmore]
        simp
      simpa [opening] using hbrace

/-- A text is closed, or it has an opening that no brace comes after and is closed before the first
of these. -/
theorem closed_or_open (cs : List Char) :
    Closed cs ∨ ∃ before rest, cs = before ++ opening ++ rest ∧ '}' ∉ rest ∧ Closed before := by
  obtain ⟨t, h, rfl⟩ := exists_proper cs
  induction t with
  | plain text => exact .inl (Literal.closed h)
  | unclosed text rest => exact .inr ⟨text, rest, rfl, h.2, h.1.closed⟩
  | field text name following ih =>
    rw [text_field, ← List.append_assoc]
    rcases ih h.2.2 with hclosed | ⟨before, rest, heq, hrest, hbefore⟩
    · exact .inl (closed_append_iff.mpr hclosed)
    · exact .inr ⟨(text ++ opening ++ name) ++ '}' :: before, rest, by simp [heq], hrest,
        closed_append_iff.mpr hbefore⟩

/-! ## Filling, part by part -/

/-- A part of a template. -/
inductive Part where
  | literal (text : List Char)
  | field (name : List Char)
deriving DecidableEq

def Part.filled (values : Parameters) : Part → List Char
  | literal text => text
  | field name => fieldText values name

def parts : Template → List Part
  | plain text => [.literal text]
  | unclosed text rest => [.literal text, .literal (opening ++ rest)]
  | field text name following => .literal text :: .field name :: following.parts

theorem fill_eq_flatMap (t : Template) : t.fill values = t.parts.flatMap (Part.filled values) := by
  induction t with
  | plain text => simp [fill, parts, Part.filled]
  | unclosed text rest => simp [fill, parts, Part.filled]
  | field text name following ih => simp [fill, parts, Part.filled, ih]

/-- Only a field whose parameter has another value is filled otherwise. -/
theorem Part.filled_ne {values' : Parameters} {p : Part} (h : p.filled values ≠ p.filled values') :
    ∃ name, p = .field name ∧
      values.get? (String.ofList name) ≠ values'.get? (String.ofList name) := by
  cases p with
  | literal text => exact absurd rfl h
  | field name =>
    refine ⟨name, rfl, fun heq => h ?_⟩
    rw [filled, filled, fieldText, fieldText, heq]

/-! ## Filling a text -/

/-- Fills the fields of a text. -/
def render (values : Parameters) (cs : List Char) : List Char := (ofText cs).fill values

theorem render_text {t : Template} (h : t.Proper) : render values t.text = t.fill values := by
  rw [render, ofText_text h]

theorem render_literal (h : Literal cs) : render values cs = cs := by
  rw [render, ofText_literal h, fill]

theorem render_unclosed (h : Literal text) (hrest : '}' ∉ rest) :
    render values (text ++ opening ++ rest) = text ++ opening ++ rest := by
  rw [render, ofText_unclosed h hrest, fill]

theorem render_field (h : Literal text) (hname : '}' ∉ name) :
    render values (text ++ opening ++ (name ++ '}' :: after)) =
      text ++ fieldText values name ++ render values after := by
  rw [render, ofText_field h hname, fill, render]

theorem render_opening_field (hname : '}' ∉ name) :
    render values (opening ++ (name ++ '}' :: after)) =
      fieldText values name ++ render values after :=
  render_field literal_nil hname

theorem render_opening_unclosed (hrest : '}' ∉ rest) :
    render values (opening ++ rest) = opening ++ rest :=
  render_unclosed literal_nil hrest

theorem render_literal_append (h : Literal text) (cs : List Char) :
    render values (text ++ opening ++ cs) = text ++ render values (opening ++ cs) := by
  by_cases hbrace : '}' ∈ cs
  · obtain ⟨name, after, rfl, hname⟩ := List.eq_append_cons_of_mem hbrace
    rw [render_field h hname, render_opening_field hname, List.append_assoc]
  · rw [render_unclosed h hbrace, render_opening_unclosed hbrace, List.append_assoc]

/-- Behind a closed text an opening is the start of something else. -/
theorem render_append_opening (hu : Closed u) (cs : List Char) :
    render values (u ++ opening ++ cs) = render values u ++ render values (opening ++ cs) := by
  obtain ⟨t, h, rfl⟩ := exists_proper u
  rw [render_text h]
  induction t with
  | plain text => exact render_literal_append h cs
  | unclosed text rest => exact absurd (hu text rest rfl) h.2
  | field text name following ih =>
    obtain ⟨htext, hname, hfollowing⟩ := h
    rw [text_field, ← List.append_assoc, closed_append_iff] at hu
    have hall : (field text name following).text ++ opening ++ cs =
        text ++ opening ++ (name ++ '}' :: (following.text ++ opening ++ cs)) := by
      simp [text_field]
    rw [hall, render_field htext hname, ih hfollowing hu, fill]
    simp only [List.append_assoc]

/-- Behind a closed text a field is one, and the texts on both sides are filled by themselves. -/
theorem render_append_field (hu : Closed u) (hname : '}' ∉ name) :
    render values (u ++ opening ++ name ++ '}' :: v) =
      render values u ++ fieldText values name ++ render values v := by
  rw [List.append_assoc _ name, render_append_opening hu, render_opening_field hname,
    List.append_assoc]

theorem render_append_unclosed (hu : Closed u) (hrest : '}' ∉ rest) :
    render values (u ++ opening ++ rest) = render values u ++ opening ++ rest := by
  rw [render_append_opening hu, render_opening_unclosed hrest, List.append_assoc]

/-- An opening that was left open takes the field behind it into its name. -/
theorem render_append_taken (hu : Closed u) (hrest : '}' ∉ rest) (hname : '}' ∉ name) :
    render values (u ++ opening ++ rest ++ opening ++ name ++ '}' :: v) =
      render values u ++ fieldText values (rest ++ opening ++ name) ++ render values v := by
  have hlong : '}' ∉ rest ++ opening ++ name := by simp [opening, hrest, hname]
  rw [← render_append_field hu hlong]
  simp only [List.append_assoc]

end Template

end LicenseAudit
