import Mathlib.Data.String.Basic
import LicenseAudit.Proofs.License.Decomposition

/-!
# Filling a text by byte offsets

A text can be filled without being taken apart first: find the first opening and the first closing
brace after it, as offsets in bytes, cut the text there, and go on with what is behind the brace
(`renderAt?`). A cut can fail, for there is none beyond the end of a text nor inside a character
(`cut?_eq_some_iff`). **None of these cuts fails, and together they fill the text**
(`renderAt?_eq`): every offset is the size of some text in front, and a turn of the loop takes one
field off (`turn?_field`).
-/

set_option autoImplicit false

namespace LicenseAudit

namespace Template

open String (utf8Len)

variable {cs text name rest after : List Char} {values : Parameters}

/-! ## Cuts -/

/-- Cuts a text at an offset in bytes. -/
def cut? : Nat → List Char → Option (List Char × List Char)
  | 0, cs => some ([], cs)
  | _ + 1, [] => none
  | n + 1, c :: cs =>
    if c.utf8Size ≤ n + 1 then (cut? (n + 1 - c.utf8Size) cs).map fun (a, b) => (c :: a, b)
    else none

def front? (n : Nat) (cs : List Char) : Option (List Char) := (cut? n cs).map Prod.fst

def back? (n : Nat) (cs : List Char) : Option (List Char) := (cut? n cs).map Prod.snd

def between? (m n : Nat) (cs : List Char) : Option (List Char) := front? n cs >>= back? m

/-- There is a cut exactly at the ends of the texts in front. -/
theorem cut?_eq_some_iff {n : Nat} {a b : List Char} :
    cut? n cs = some (a, b) ↔ a ++ b = cs ∧ utf8Len a = n := by
  fun_induction cut? n cs generalizing a with
  | case1 cs =>
    cases a with
    | nil => simp [eq_comm]
    | cons c a => simp [Nat.ne_of_gt c.utf8Size_pos]
  | case2 n => cases a <;> simp
  | case3 n c cs h ih =>
    cases a with
    | nil => simp
    | cons d a =>
      simp only [Option.map_eq_some_iff, Prod.exists, Prod.mk.injEq, List.cons.injEq,
        List.cons_append, String.utf8Len_cons]
      constructor
      · intro hcut
        obtain ⟨a', b', hcut, ⟨rfl, rfl⟩, rfl⟩ := hcut
        obtain ⟨rfl, hsize⟩ := ih.mp hcut
        exact ⟨⟨rfl, rfl⟩, by omega⟩
      · intro hparts
        obtain ⟨⟨rfl, rfl⟩, hsize⟩ := hparts
        exact ⟨a, b, ih.mpr ⟨rfl, by omega⟩, ⟨rfl, rfl⟩, rfl⟩
  | case4 n c cs h =>
    cases a with
    | nil => simp
    | cons d a =>
      simp only [reduceCtorEq, List.cons_append, List.cons.injEq, String.utf8Len_cons, false_iff]
      intro hparts
      obtain ⟨⟨rfl, -⟩, hsize⟩ := hparts
      exact h (by omega)

theorem cut?_append (a b : List Char) : cut? (utf8Len a) (a ++ b) = some (a, b) :=
  cut?_eq_some_iff.mpr ⟨rfl, rfl⟩

theorem front?_append (a b : List Char) : front? (utf8Len a) (a ++ b) = some a := by
  rw [front?, cut?_append]
  rfl

theorem back?_append (a b : List Char) : back? (utf8Len a) (a ++ b) = some b := by
  rw [back?, cut?_append]
  rfl

theorem between?_append (a b c : List Char) :
    between? (utf8Len a) (utf8Len (a ++ b)) (a ++ b ++ c) = some b := by
  rw [between?, front?_append]
  exact back?_append a b

/-! ## Searches -/

/-- The offset where the pattern is found first. -/
def offset? (pattern : List Char) : List Char → Option Nat
  | [] => if pattern = [] then some 0 else none
  | c :: cs =>
    if pattern <+: c :: cs then some 0 else (offset? pattern cs).map (· + c.utf8Size)

theorem offset?_eq_none_iff {pattern : List Char} :
    offset? pattern cs = none ↔ ¬pattern <:+: cs := by
  induction cs with
  | nil => simp [offset?]
  | cons c cs ih =>
    rw [offset?, List.infix_cons_iff, not_or, ← ih]
    split <;> simp [*]

/-- If the pattern does not begin before, it is found. -/
theorem offset?_append {pattern u v : List Char} (hpattern : pattern ≠ [])
    (h : ∀ c back, c :: back <:+ u → ¬pattern <+: c :: (back ++ pattern ++ v)) :
    offset? pattern (u ++ pattern ++ v) = some (utf8Len u) := by
  induction u with
  | nil =>
    obtain ⟨c, pattern, rfl⟩ := List.exists_cons_of_ne_nil hpattern
    simp [offset?]
  | cons c u ih =>
    have hu := ih fun d back hback => h d back (hback.trans (List.suffix_cons c u))
    show offset? pattern (c :: (u ++ pattern ++ v)) = _
    rw [offset?, if_neg (h c u List.suffix_rfl), hu]
    rfl

theorem offset?_literal (h : Literal cs) : offset? opening cs = none := offset?_eq_none_iff.mpr h

theorem offset?_opening (h : Literal text) :
    offset? opening (text ++ opening ++ rest) = some (utf8Len text) := by
  apply offset?_append (by simp [opening])
  intro c back hback
  have hliteral : Literal (c :: back) := fun hopening => h (hopening.trans hback.isInfix)
  exact hliteral.not_prefix_append

theorem offset?_of_not_mem (h : '}' ∉ cs) : offset? ['}'] cs = none := by
  rw [offset?_eq_none_iff, List.singleton_infix_iff]
  exact h

theorem offset?_closing (h : '}' ∉ cs) :
    offset? ['}'] (cs ++ '}' :: after) = some (utf8Len cs) := by
  rw [List.append_cons]
  apply offset?_append (by simp)
  intro c back hback hprefix
  obtain ⟨hc, -⟩ := List.cons_prefix_cons.mp hprefix
  exact h (hback.mem (hc ▸ List.mem_cons_self))

/-! ## Turns -/

/-- What one turn of the loop writes, and what is left to go on with. -/
inductive Turn where
  | last (text : List Char)
  | more (text after : List Char)

/-- Looks for a field; nothing where a cut fails. -/
def turn? (values : Parameters) (rest : List Char) : Option Turn :=
  match offset? opening rest with
  | none => some (.last rest)
  | some start => do
    let before ← front? start rest
    let token ← back? start rest
    match offset? ['}'] token with
    | none => return .last (before ++ token)
    | some stop =>
      let name ← between? 2 stop token
      let filled ← match values.get? (String.ofList name) with
        | some value => some value.toList
        | none => front? (stop + 1) token
      let after ← back? (stop + 1) token
      return .more (before ++ filled) after

theorem turn?_literal (h : Literal cs) : turn? values cs = some (.last cs) := by
  rw [turn?, offset?_literal h]

theorem turn?_unclosed (h : Literal text) (hrest : '}' ∉ rest) :
    turn? values (text ++ opening ++ rest) = some (.last (text ++ opening ++ rest)) := by
  have htoken : '}' ∉ opening ++ rest := by simp [opening, hrest]
  rw [turn?, offset?_opening h]
  simp only [List.append_assoc, front?_append, back?_append, offset?_of_not_mem htoken,
    Option.bind_eq_bind, Option.bind_some, Option.pure_def]

theorem turn?_field (h : Literal text) (hname : '}' ∉ name) :
    turn? values (text ++ opening ++ (name ++ '}' :: after)) =
      some (.more (text ++ fieldText values name) after) := by
  have htoken : '}' ∉ opening ++ name := by simp [opening, hname]
  -- the token begins with the opening, and the brace that ends it is one byte more
  have hstop : offset? ['}'] (opening ++ name ++ '}' :: after) = some (utf8Len (opening ++ name)) :=
    offset?_closing htoken
  have hname :
      between? 2 (utf8Len (opening ++ name)) (opening ++ name ++ '}' :: after) = some name :=
    between?_append opening name _
  have hend : utf8Len (opening ++ name) + 1 = utf8Len (opening ++ name ++ ['}']) := by
    simp
    rfl
  have hfront := front?_append (opening ++ name ++ ['}']) after
  have hback := back?_append (opening ++ name ++ ['}']) after
  rw [← hend, ← List.append_cons] at hfront hback
  rw [turn?, offset?_opening h, List.append_assoc, ← List.append_assoc opening]
  simp only [front?_append, back?_append, hstop, hname, hfront, hback, Option.bind_eq_bind,
    Option.bind_some, fieldText]
  cases values.get? (String.ofList name) <;> rfl

theorem turn?_shortens (h : turn? values cs = some (.more text after)) :
    after.length < cs.length := by
  rcases text_cases cs with hcs | ⟨front, rest, rfl, hfront, hrest⟩ |
    ⟨front, name, after', rfl, hfront, hname⟩
  · rw [turn?_literal hcs] at h
    cases h
  · rw [turn?_unclosed hfront hrest] at h
    cases h
  · rw [turn?_field hfront hname] at h
    cases h
    simp only [List.length_append, List.length_cons]
    omega

/-- Turn after turn, as long as there is something to go on with. -/
def renderAt? (values : Parameters) (rest : List Char) : Option (List Char) :=
  match _ : turn? values rest with
  | none => none
  | some (.last text) => some text
  | some (.more text after) => (renderAt? values after).map (text ++ ·)
termination_by rest.length
decreasing_by exact turn?_shortens ‹_›

theorem renderAt?_last (h : turn? values cs = some (.last text)) :
    renderAt? values cs = some text := by
  rw [renderAt?]
  split <;> simp_all

theorem renderAt?_more (h : turn? values cs = some (.more text after)) :
    renderAt? values cs = (renderAt? values after).map (text ++ ·) := by
  rw [renderAt?]
  split <;> simp_all

/-- No cut fails, and what is written is the text with its fields filled. -/
theorem renderAt?_eq (values : Parameters) (cs : List Char) :
    renderAt? values cs = some (render values cs) := by
  obtain ⟨t, h, rfl⟩ := exists_proper cs
  induction t with
  | plain text => rw [Template.text, renderAt?_last (turn?_literal h), render_literal h]
  | unclosed text rest =>
    rw [Template.text, renderAt?_last (turn?_unclosed h.1 h.2), render_unclosed h.1 h.2]
  | field text name following ih =>
    obtain ⟨htext, hname, hfollowing⟩ := h
    rw [text_field, renderAt?_more (turn?_field htext hname), ih hfollowing,
      render_field htext hname]
    rfl

end Template

end LicenseAudit
