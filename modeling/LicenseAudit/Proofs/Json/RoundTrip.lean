import LicenseAudit.Json.Printer
import LicenseAudit.Json.Reader

/-!
# Reading JSON that was written

The reader gives back every value that the printer writes, as long as the value is made of texts: a
number is printed with whatever digits it was given, and a broken literal is printed as something
else. The reader takes a step for each value and each item, and the text has a character for each.
-/

set_option autoImplicit false

namespace LicenseAudit

namespace Json

/-- The value has no numbers in it, and each of its literals denotes a text. -/
inductive Textual : Json → Prop where
  | null : Textual .null
  | boolean (b : Bool) : Textual (.boolean b)
  | string (s : String) : Textual (.string (.text s))
  | array {items : List Json} : (∀ j ∈ items, Textual j) → Textual (.array items)
  | object {members : List (JsonText × Json)} :
      (∀ m ∈ members, ∃ s, m.1 = .text s) → (∀ m ∈ members, Textual m.2) →
      Textual (.object members)

/-! ## Blanks -/

theorem skipBlanks_replicate (n : Nat) (cs : List Char) :
    skipBlanks (List.replicate n ' ' ++ cs) = skipBlanks cs := by
  induction n with
  | zero => rfl
  | succ n ih => simpa [List.replicate_succ, skipBlanks] using ih

@[simp] theorem skipBlanks_newline (level : Nat) (cs : List Char) :
    skipBlanks (newline level ++ cs) = skipBlanks cs := by
  simpa [newline, skipBlanks] using skipBlanks_replicate (2 * level) cs

theorem skipBlanks_comma (cs : List Char) : skipBlanks (',' :: cs) = ',' :: cs := rfl

@[simp] theorem skipBlanks_space (cs : List Char) : skipBlanks (' ' :: cs) = skipBlanks cs := by
  simp [skipBlanks]

theorem readValue_congr {cs ds : List Char} (h : skipBlanks cs = skipBlanks ds) (steps : Nat) :
    readValue steps cs = readValue steps ds := by
  cases steps with
  | zero => simp only [readValue]
  | succ steps => simp only [readValue, h]

theorem readItems_congr {cs ds : List Char} (h : skipBlanks cs = skipBlanks ds) (steps : Nat) :
    readItems steps cs = readItems steps ds := by
  cases steps with
  | zero => simp only [readItems]
  | succ steps => simp only [readItems, readValue_congr h]

theorem readMembers_congr {cs ds : List Char} (h : skipBlanks cs = skipBlanks ds) (steps : Nat) :
    readMembers steps cs = readMembers steps ds := by
  cases steps with
  | zero => simp only [readMembers]
  | succ steps => simp only [readMembers, readKey, h]

theorem skipBlanks_idem (cs : List Char) : skipBlanks (skipBlanks cs) = skipBlanks cs := by
  induction cs with
  | nil => rfl
  | cons c cs ih =>
    rw [skipBlanks]
    split
    case isTrue => exact ih
    case isFalse hc => rw [skipBlanks, if_neg hc]

theorem readValue_bracket {steps : Nat} {cs : List Char} (h : ∀ ds, skipBlanks cs ≠ ']' :: ds) :
    readValue (steps + 1) ('[' :: cs) =
      (readItems steps cs).map fun p => (.array p.1, p.2) := by
  have hopen : skipBlanks ('[' :: cs) = '[' :: cs := rfl
  simp only [readValue, hopen]
  rw [readItems_congr (skipBlanks_idem cs)]

theorem readValue_brace {steps : Nat} {cs : List Char} (h : ∀ ds, skipBlanks cs ≠ '}' :: ds) :
    readValue (steps + 1) ('{' :: cs) =
      (readMembers steps cs).map fun p => (.object p.1, p.2) := by
  have hopen : skipBlanks ('{' :: cs) = '{' :: cs := rfl
  simp only [readValue, hopen]
  rw [readMembers_congr (skipBlanks_idem cs)]

/-! ## String literals -/

theorem hexUnit?_control : ∀ n < 32,
    hexUnit? '0' '0' (hexDigit (n / 16)) (hexDigit (n % 16)) = some n := by
  decide

theorem ofNat_control {n : Nat} (h : n < 32) : Unit16.ofNat n = .char (Char.ofNat n) := by
  unfold Unit16.ofNat
  rw [if_neg (by omega), if_neg (by omega)]

theorem readUnits_short {e c : Char} (h : shortEscape? e = some c) (cs : List Char) :
    readUnits ('\\' :: e :: cs) = (readUnits cs).map fun p => (.char c :: p.1, p.2) := by
  have hu : e ≠ 'u' := by
    rintro rfl
    simp [shortEscape?] at h
  rw [readUnits]
  · rw [h]
    cases readUnits cs <;> rfl
  · intro _ _ _ _ _ he _
    exact hu he

theorem readUnits_plain {c : Char} (hcontrol : ¬c.toNat < 32) (hquote : c ≠ '"')
    (hbackslash : c ≠ '\\') (cs : List Char) :
    readUnits (c :: cs) = (readUnits cs).map fun p => (.char c :: p.1, p.2) := by
  rw [readUnits]
  · rw [if_neg (not_or.mpr ⟨hcontrol, hbackslash⟩)]
    cases readUnits cs <;> rfl
  · exact hquote
  · intro _ _ _ _ _ hc _
    exact hbackslash hc
  · intro _ _ hc _
    exact hbackslash hc

/-- The reader undoes an escape, whichever form the character has. -/
theorem readUnits_escape (c : Char) (cs : List Char) :
    readUnits (escape c ++ cs) = (readUnits cs).map fun p => (.char c :: p.1, p.2) := by
  unfold escape
  split
  case h_8 _ hquote hbackslash _ _ _ _ _ =>
    split
    case isTrue hc =>
      show readUnits ('\\' :: 'u' :: '0' :: '0' :: hexDigit (c.toNat / 16) ::
        hexDigit (c.toNat % 16) :: cs) = _
      rw [readUnits, hexUnit?_control _ hc]
      simp only [Option.bind_eq_bind, Option.bind_some, ofNat_control hc, Char.ofNat_toNat]
      cases readUnits cs <;> rfl
    case isFalse hc => exact readUnits_plain hc hquote hbackslash cs
  all_goals exact readUnits_short rfl cs

theorem readUnits_flatMap_escape (cs rest : List Char) :
    readUnits (cs.flatMap escape ++ '"' :: rest) = some (cs.map .char, rest) := by
  induction cs with
  | nil => simp [readUnits]
  | cons c cs ih => rw [List.flatMap_cons, List.append_assoc, readUnits_escape, ih]; rfl

theorem pairUnits_map_char (cs : List Char) : pairUnits (cs.map .char) = some cs := by
  induction cs with
  | nil => rfl
  | cons c cs ih => rw [List.map_cons, pairUnits, ih]; rfl

theorem textOfUnits_map_char (s : String) : textOfUnits (s.toList.map .char) = .text s := by
  rw [textOfUnits, pairUnits_map_char]
  simp only [String.ofList_toList]

theorem literal_text (s : String) (rest : List Char) :
    literal (.text s) ++ rest = '"' :: (s.toList.flatMap escape ++ '"' :: rest) := by
  simp [literal, quote]

theorem readKey_literal (s : String) (rest : List Char) :
    readKey (literal (.text s) ++ (':' :: rest)) = some (.text s, rest) := by
  simp only [literal_text, readKey, skipBlanks]
  simp [readUnits_flatMap_escape, skipBlanks, textOfUnits_map_char]

/-! ## Values -/

/-- What is printed begins with a character that tells the reader what to expect. -/
theorem Textual.print_eq_cons {j : Json} (h : Textual j) (level : Nat) :
    ∃ c cs, print level j = c :: cs ∧ c ∈ ['n', 't', 'f', '"', '[', '{'] := by
  cases h with
  | null => exact ⟨_, _, by rw [print], by decide⟩
  | boolean b =>
    cases b with
    | true => exact ⟨_, _, by rw [print], by decide⟩
    | false => exact ⟨_, _, by rw [print], by decide⟩
  | string s => exact ⟨_, _, by rw [print, literal, quote]; rfl, by decide⟩
  | @array items =>
    cases items with
    | nil => exact ⟨_, _, by rw [print], by decide⟩
    | cons item items => exact ⟨_, _, by rw [print]; rfl, by decide⟩
  | @object members =>
    cases members with
    | nil => exact ⟨_, _, by rw [print], by decide⟩
    | cons member members => exact ⟨_, _, by rw [print]; rfl, by decide⟩

theorem Textual.not_closed {j : Json} (h : Textual j) (level : Nat) (cs ds : List Char) :
    skipBlanks (print level j ++ cs) ≠ ']' :: ds := by
  obtain ⟨c, rest, hprint, hc⟩ := h.print_eq_cons level
  rw [hprint, List.cons_append, skipBlanks, if_neg]
  · rintro ⟨⟩
    simp at hc
  · rintro (rfl | rfl | rfl | rfl) <;> simp at hc

-- Induction on the steps. A printed value is read in at most as many steps as it has characters:
-- the bracket and the new line before the first item pay for the steps that lead to it, and the
-- comma and the new line before each later one likewise.
mutual

theorem readValue_print {steps level : Nat} {j : Json} {rest : List Char} (h : Textual j)
    (hsteps : (print level j).length ≤ steps) :
    readValue steps (print level j ++ rest) = some (j, rest) := by
  match steps, j, h with
  | 0, j, h =>
    obtain ⟨c, cs, hprint, -⟩ := h.print_eq_cons level
    simp [hprint] at hsteps
  | steps + 1, .null, _ => simp [print, readValue, skipBlanks]
  | steps + 1, .boolean true, _ => simp [print, readValue, skipBlanks]
  | steps + 1, .boolean false, _ => simp [print, readValue, skipBlanks]
  | steps + 1, .string (.text s), _ =>
    rw [print, literal_text]
    simp [readValue, skipBlanks, readUnits_flatMap_escape, textOfUnits_map_char]
  | steps + 1, .array [], _ => simp [print, readValue, skipBlanks]
  | steps + 1, .array (item :: items), .array hitems =>
    have hitem := hitems item List.mem_cons_self
    simp only [print, List.cons_append, List.append_assoc] at hsteps ⊢
    simp only [List.length_cons, List.length_append, newline] at hsteps
    rw [readValue_bracket, readItems_congr (skipBlanks_newline _ _),
      readItems_print hitems (by omega)]
    · rfl
    · -- the first item does not begin like the end of the array
      intro ds
      rw [skipBlanks_newline]
      exact hitem.not_closed _ _ _
  | steps + 1, .object [], _ => simp [print, readValue, skipBlanks]
  | steps + 1, .object ((.text key, value) :: members), .object hkeys hvalues =>
    simp only [print, List.cons_append, List.append_assoc, List.nil_append] at hsteps ⊢
    simp only [List.length_cons, List.length_append, newline] at hsteps
    rw [readValue_brace, readMembers_congr (skipBlanks_newline _ _),
      readMembers_print (List.forall_mem_cons.mp hkeys).2 hvalues (by omega)]
    · rfl
    · intro ds
      rw [skipBlanks_newline, literal_text]
      simp [skipBlanks]
  | steps + 1, .object ((.broken, value) :: members), .object hkeys _ => simp at hkeys

theorem readItems_print {steps level : Nat} {item : Json} {items : List Json} {rest : List Char}
    (h : ∀ j ∈ item :: items, Textual j)
    (hsteps : (print (level + 1) item).length + (printItems level items).length < steps) :
    readItems steps (print (level + 1) item ++ (printItems level items ++ rest)) =
      some (item :: items, rest) := by
  match steps, items with
  | 0, items => omega
  | steps + 1, [] =>
    rw [readItems, readValue_print (h item List.mem_cons_self) (by omega)]
    simp [printItems, skipBlanks]
  | steps + 1, next :: items =>
    rw [readItems, readValue_print (h item List.mem_cons_self) (by omega)]
    simp only [printItems, List.cons_append, List.append_assoc] at hsteps ⊢
    simp only [List.length_cons, List.length_append, newline] at hsteps
    simp only [skipBlanks_comma]
    rw [readItems_congr (skipBlanks_newline _ _),
      readItems_print (List.forall_mem_cons.mp h).2 (by omega)]
    rfl

theorem readMembers_print {steps level : Nat} {key : String} {value : Json}
    {members : List (JsonText × Json)} {rest : List Char}
    (hkeys : ∀ m ∈ members, ∃ s, m.1 = .text s)
    (hvalues : ∀ m ∈ (.text key, value) :: members, Textual m.2)
    (hsteps : (print (level + 1) value).length + (printMembers level members).length < steps) :
    readMembers steps (literal (.text key) ++
        ':' :: ' ' :: (print (level + 1) value ++ (printMembers level members ++ rest))) =
      some ((.text key, value) :: members, rest) := by
  have hvalue : Textual value := hvalues _ List.mem_cons_self
  match steps, members with
  | 0, members => omega
  | steps + 1, [] =>
    simp only [readMembers, readKey_literal]
    rw [readValue_congr (skipBlanks_space _), readValue_print hvalue (by omega)]
    simp [printMembers, skipBlanks]
  | steps + 1, (.text next, nextValue) :: members =>
    simp only [readMembers, readKey_literal]
    rw [readValue_congr (skipBlanks_space _), readValue_print hvalue (by omega)]
    simp only [printMembers, List.cons_append, List.append_assoc, List.nil_append] at hsteps ⊢
    simp only [List.length_cons, List.length_append, newline] at hsteps
    simp only [skipBlanks_comma]
    rw [readMembers_congr (skipBlanks_newline _ _),
      readMembers_print (List.forall_mem_cons.mp hkeys).2 (List.forall_mem_cons.mp hvalues).2
        (by omega)]
    rfl
  | steps + 1, (.broken, nextValue) :: members => simp at hkeys

end

theorem read?_text {j : Json} (h : Textual j) : read? j.text = some j := by
  have hread : readValue (2 * j.text.length + 2) (print 0 j ++ []) = some (j, []) :=
    readValue_print h (by simp [text]; omega)
  unfold read?
  rw [text, String.toList_ofList, ← text, ← List.append_nil (print 0 j), hread]
  rfl

end Json

end LicenseAudit
