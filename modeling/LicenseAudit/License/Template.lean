import LicenseAudit.Ordered.SortedBy

/-!
# License texts with places to fill

A license text is a template: `${name}` marks a place that is filled with the value of a
parameter. A `Template` is such a text taken apart, once, from left to right: each field opens at
the first opening that is left and closes at the first brace after it. An opening that no brace
closes is text, and so is a field whose name has no value.

Filling walks over the parts and never over what it has written, so a value that looks like a
field stays as it is.
-/

set_option autoImplicit false

namespace LicenseAudit

/-- The values supplied for the parameters of a license text. -/
abbrev Parameters : Type := Table String

/-- A license text taken apart. -/
inductive Template where
  /-- Text without an opening, up to the end. -/
  | plain (text : List Char)
  /-- Text without an opening, then an opening, then a rest in which nothing closes it. -/
  | unclosed (text rest : List Char)
  /-- Text without an opening, then a field, then more. -/
  | field (text name : List Char) (following : Template)
deriving DecidableEq

namespace Template

def opening : List Char := ['$', '{']

/-- Splits at the first opening: what is before it, and what is after it if there is one. -/
def splitOpening : List Char → List Char × Option (List Char)
  | [] => ([], none)
  | '$' :: '{' :: rest => ([], some rest)
  | c :: rest => (c :: (splitOpening rest).1, (splitOpening rest).2)

/-- Splits at the first closing brace, if there is one. -/
def splitClosing : List Char → Option (List Char × List Char)
  | [] => none
  | '}' :: rest => some ([], rest)
  | c :: rest => (splitClosing rest).map fun (name, after) => (c :: name, after)

theorem length_splitOpening {cs rest : List Char} (h : (splitOpening cs).2 = some rest) :
    rest.length < cs.length := by
  fun_induction splitOpening cs with
  | case1 => cases h
  | case2 rest' => cases h; simp only [List.length_cons]; omega
  | case3 c rest' _ ih => exact Nat.lt_succ_of_lt (ih h)

theorem length_splitClosing {cs name after : List Char}
    (h : splitClosing cs = some (name, after)) : after.length < cs.length := by
  fun_induction splitClosing cs generalizing name with
  | case1 => cases h
  | case2 rest => cases h; simp only [List.length_cons]; omega
  | case3 c rest _ ih =>
    obtain ⟨⟨name', after'⟩, hr, he⟩ := Option.map_eq_some_iff.mp h
    cases he
    exact Nat.lt_succ_of_lt (ih hr)

def ofText (cs : List Char) : Template :=
  match _ : (splitOpening cs).2 with
  | none => .plain (splitOpening cs).1
  | some rest =>
    match _ : splitClosing rest with
    | none => .unclosed (splitOpening cs).1 rest
    | some (name, after) => .field (splitOpening cs).1 name (ofText after)
termination_by cs.length
decreasing_by exact Nat.lt_trans (length_splitClosing ‹_›) (length_splitOpening ‹_›)

/-- What a field contributes: its parameter's value, or itself where there is none. -/
def fieldText (values : Parameters) (name : List Char) : List Char :=
  match values.get? (String.ofList name) with
  | some value => value.toList
  | none => opening ++ name ++ ['}']

def fill (values : Parameters) : Template → List Char
  | plain text => text
  | unclosed text rest => text ++ opening ++ rest
  | field text name following => text ++ fieldText values name ++ fill values following

/-- The license text again, its fields unfilled. -/
def text : Template → List Char
  | plain text => text
  | unclosed text rest => text ++ opening ++ rest
  | field text name following => text ++ opening ++ name ++ ['}'] ++ following.text

end Template

end LicenseAudit
