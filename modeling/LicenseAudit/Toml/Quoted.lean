import LicenseAudit.Toml.Blank

/-!
# Strings in TOML

A string is basic or literal, on one line or on several. Only basic strings know escapes. A string
over several lines loses the line end that it begins with, has a line feed for every line end, and
may hold up to two quotes in a row, also right before the three that close it; in a basic one a
backslash at the end of a line takes all blanks and line ends up to the next character with it.
-/

set_option autoImplicit false

namespace LicenseAudit

namespace Toml

def hexValue? (c : Char) : Option Nat :=
  if '0' ≤ c ∧ c ≤ '9' then some (c.toNat - 48)
  else if 'a' ≤ c ∧ c ≤ 'f' then some (c.toNat - 87)
  else if 'A' ≤ c ∧ c ≤ 'F' then some (c.toNat - 55)
  else none

/-- The character whose code point has these hexadecimal digits. -/
def codePoint? (digits : List Char) : Option Char := do
  let values ← digits.mapM hexValue?
  let n := values.foldl (fun n v => n * 16 + v) 0
  if n.isValidChar then return Char.ofNat n else none

def shortEscape? : Char → Option Char
  | 'b' => some '\x08'
  | 't' => some '\t'
  | 'n' => some '\n'
  | 'f' => some '\x0c'
  | 'r' => some '\r'
  | '"' => some '"'
  | '\\' => some '\\'
  | _ => none

/-- The character that an escape stands for, after its backslash. -/
def readEscape : Reader Char
  | 'u' :: a :: b :: c :: d :: cs => (codePoint? [a, b, c, d]).map (·, cs)
  | 'U' :: a :: b :: c :: d :: e :: f :: g :: h :: cs =>
    (codePoint? [a, b, c, d, e, f, g, h]).map (·, cs)
  | c :: cs => (shortEscape? c).map (·, cs)
  | [] => none

theorem length_readEscape {cs rest : List Char} {c : Char} (h : readEscape cs = some (c, rest)) :
    rest.length < cs.length := by
  unfold readEscape at h
  split at h <;> simp_all <;> obtain ⟨_, _, _, rfl⟩ := h <;> omega

def skipMargin : List Char → List Char
  | '\n' :: cs => skipMargin cs
  | '\r' :: '\n' :: cs => skipMargin cs
  | c :: cs => if isBlank c then skipMargin cs else c :: cs
  | [] => []

theorem length_skipMargin (cs : List Char) : (skipMargin cs).length ≤ cs.length := by
  fun_induction skipMargin cs <;> simp_all <;> omega

/-- What is left after the end of a line that a backslash joins to what follows. -/
def skipJoint? (cs : List Char) : Option (List Char) :=
  (skipNewline? (skipBlanks cs)).map skipMargin

theorem length_skipNewline? {cs rest : List Char} (h : skipNewline? cs = some rest) :
    rest.length < cs.length := by
  unfold skipNewline? at h
  split at h
  · cases h; exact Nat.lt_succ_self _
  · cases h; exact Nat.lt_succ_of_lt (Nat.lt_succ_self _)
  · cases h

theorem length_skipJoint? {cs rest : List Char} (h : skipJoint? cs = some rest) :
    rest.length < cs.length := by
  obtain ⟨mid, hm, rfl⟩ := Option.map_eq_some_iff.mp h
  have h1 := length_skipNewline? hm
  have h2 := length_skipMargin mid
  have h3 : (skipBlanks cs).length ≤ cs.length := (List.dropWhile_sublist isBlank).length_le
  omega

/-- A basic string after its opening quote. -/
def readBasic (cs : List Char) : Option (List Char × List Char) :=
  match cs with
  | [] => none
  | '"' :: cs => some ([], cs)
  | '\\' :: cs =>
    match _ : readEscape cs with
    | some (c, rest) => (readBasic rest).map fun (text, rest) => (c :: text, rest)
    | none => none
  | c :: cs =>
    if isPrintable c then (readBasic cs).map fun (text, rest) => (c :: text, rest) else none
termination_by cs.length
decreasing_by
  · exact Nat.lt_succ_of_lt (length_readEscape ‹_›)
  · exact Nat.lt_succ_self _

/-- A basic string over several lines, after its opening quotes. -/
def readBasicLines (cs : List Char) : Option (List Char × List Char) :=
  match cs with
  | [] => none
  | '"' :: '"' :: '"' :: '"' :: '"' :: cs => some (['"', '"'], cs)
  | '"' :: '"' :: '"' :: '"' :: cs => some (['"'], cs)
  | '"' :: '"' :: '"' :: cs => some ([], cs)
  | '\\' :: cs =>
    match _ : skipJoint? cs with
    | some rest => readBasicLines rest
    | none =>
      match _ : readEscape cs with
      | some (c, rest) => (readBasicLines rest).map fun (text, rest) => (c :: text, rest)
      | none => none
  | '\r' :: '\n' :: cs => (readBasicLines cs).map fun (text, rest) => ('\n' :: text, rest)
  | c :: cs =>
    if c = '\n' ∨ isPrintable c = true then
      (readBasicLines cs).map fun (text, rest) => (c :: text, rest)
    else none
termination_by cs.length
decreasing_by
  · exact Nat.lt_succ_of_lt (length_skipJoint? ‹_›)
  · exact Nat.lt_succ_of_lt (length_readEscape ‹_›)
  · exact Nat.lt_succ_of_lt (Nat.lt_succ_self _)
  · exact Nat.lt_succ_self _

def readLiteral : Reader (List Char)
  | [] => none
  | '\'' :: cs => some ([], cs)
  | c :: cs =>
    if isPrintable c then (readLiteral cs).map fun (text, rest) => (c :: text, rest) else none

/-- A literal string over several lines, after its opening quotes. -/
def readLiteralLines : Reader (List Char)
  | [] => none
  | '\'' :: '\'' :: '\'' :: '\'' :: '\'' :: cs => some (['\'', '\''], cs)
  | '\'' :: '\'' :: '\'' :: '\'' :: cs => some (['\''], cs)
  | '\'' :: '\'' :: '\'' :: cs => some ([], cs)
  | '\r' :: '\n' :: cs => (readLiteralLines cs).map fun (text, rest) => ('\n' :: text, rest)
  | c :: cs =>
    if c = '\n' ∨ isPrintable c = true then
      (readLiteralLines cs).map fun (text, rest) => (c :: text, rest)
    else none

/-- What is left after a line end, if there is one. -/
def dropNewline (cs : List Char) : List Char := (skipNewline? cs).getD cs

def readString : Reader (List Char)
  | '"' :: '"' :: '"' :: cs => readBasicLines (dropNewline cs)
  | '"' :: cs => readBasic cs
  | '\'' :: '\'' :: '\'' :: cs => readLiteralLines (dropNewline cs)
  | '\'' :: cs => readLiteral cs
  | _ => none

def readLineString : Reader (List Char)
  | '"' :: cs => readBasic cs
  | '\'' :: cs => readLiteral cs
  | _ => none

end Toml

end LicenseAudit
