import LicenseAudit.Json.Basic

/-!
# Reading JSON

The reader takes a whole text as one value, or refuses it. It is strict: no comments, no commas at
the end, no control characters in strings, no zeros before a number. How deep values nest is not
limited, and how large a number is does not matter.

Arrays and objects are read with an allowance of steps; `read?` gives as many as the text has
characters, and every step takes at least one of them.
-/

set_option autoImplicit false

namespace LicenseAudit

namespace Json

def skipBlanks : List Char → List Char
  | [] => []
  | c :: cs => if c = ' ' ∨ c = '\n' ∨ c = '\t' ∨ c = '\r' then skipBlanks cs else c :: cs

def hexValue? (c : Char) : Option Nat :=
  if '0' ≤ c ∧ c ≤ '9' then some (c.toNat - 48)
  else if 'a' ≤ c ∧ c ≤ 'f' then some (c.toNat - 87)
  else if 'A' ≤ c ∧ c ≤ 'F' then some (c.toNat - 55)
  else none

def hexUnit? (a b c d : Char) : Option Nat := do
  return (← hexValue? a) * 4096 + (← hexValue? b) * 256 + (← hexValue? c) * 16 + (← hexValue? d)

/-- One unit of a string literal: a character, or half of a surrogate pair. -/
inductive Unit16 where
  | char (c : Char)
  | high (bits : Nat)
  | low (bits : Nat)
deriving DecidableEq

/-- What an escape of four digits denotes. -/
def Unit16.ofNat (n : Nat) : Unit16 :=
  if 0xD800 ≤ n ∧ n < 0xDC00 then .high (n - 0xD800)
  else if 0xDC00 ≤ n ∧ n < 0xE000 then .low (n - 0xDC00)
  else .char (Char.ofNat n)

def shortEscape? : Char → Option Char
  | '"' => some '"'
  | '\\' => some '\\'
  | '/' => some '/'
  | 'b' => some '\x08'
  | 'f' => some '\x0c'
  | 'n' => some '\n'
  | 'r' => some '\r'
  | 't' => some '\t'
  | _ => none

/-- The units of a string literal after its opening quote, and what follows the literal. -/
def readUnits : List Char → Option (List Unit16 × List Char)
  | [] => none
  | '"' :: rest => some ([], rest)
  | '\\' :: 'u' :: a :: b :: c :: d :: rest => do
    let n ← hexUnit? a b c d
    let (units, rest) ← readUnits rest
    return (Unit16.ofNat n :: units, rest)
  | '\\' :: e :: rest => do
    let c ← shortEscape? e
    let (units, rest) ← readUnits rest
    return (.char c :: units, rest)
  | c :: rest =>
    if c.toNat < 32 ∨ c = '\\' then none
    else do
      let (units, rest) ← readUnits rest
      return (.char c :: units, rest)

/-- The characters that units denote, unless one is half of a pair without the other. -/
def pairUnits : List Unit16 → Option (List Char)
  | [] => some []
  | .char c :: units => (pairUnits units).map (c :: ·)
  | .high h :: .low l :: units =>
    (pairUnits units).map (Char.ofNat (0x10000 + h * 1024 + l) :: ·)
  | .high _ :: _ | .low _ :: _ => none

def textOfUnits (units : List Unit16) : JsonText :=
  match pairUnits units with
  | some cs => .text (String.ofList cs)
  | none => .broken

/-- The digits that a text begins with, and the rest. -/
def readDigits : List Char → List Char × List Char
  | [] => ([], [])
  | c :: cs => if c.isDigit then (c :: (readDigits cs).1, (readDigits cs).2) else ([], c :: cs)

/-- The digits that a text begins with, at least one, and the rest. -/
def readDigits1 (cs : List Char) : Option (List Char × List Char) :=
  match readDigits cs with
  | ([], _) => none
  | found => some found

/-- The whole part of a number: a zero, or digits that begin with another. -/
def readWhole : List Char → Option (List Char × List Char)
  | '0' :: rest =>
    match readDigits rest with
    | ([], rest) => some (['0'], rest)
    | _ => none
  | cs => readDigits1 cs

/-- The decimal places of a number, if it has any. -/
def readPlaces : List Char → Option (List Char × List Char)
  | '.' :: rest => (readDigits1 rest).map fun (ds, rest) => ('.' :: ds, rest)
  | cs => some ([], cs)

def readExponent : List Char → Option (List Char × List Char)
  | e :: rest =>
    if e = 'e' ∨ e = 'E' then
      match rest with
      | '+' :: rest => (readDigits1 rest).map fun (ds, rest) => (e :: '+' :: ds, rest)
      | '-' :: rest => (readDigits1 rest).map fun (ds, rest) => (e :: '-' :: ds, rest)
      | rest => (readDigits1 rest).map fun (ds, rest) => (e :: ds, rest)
    else some ([], e :: rest)
  | [] => some ([], [])

def readMagnitude (cs : List Char) : Option (List Char × List Char) := do
  let (whole, cs) ← readWhole cs
  let (places, cs) ← readPlaces cs
  let (exponent, cs) ← readExponent cs
  return (whole ++ places ++ exponent, cs)

def readNumber : List Char → Option (Json × List Char)
  | '-' :: cs =>
    (readMagnitude cs).map fun (ds, rest) => (.number (String.ofList ('-' :: ds)), rest)
  | cs => (readMagnitude cs).map fun (ds, rest) => (.number (String.ofList ds), rest)

/-- The key of a member and the colon after it. -/
def readKey (cs : List Char) : Option (JsonText × List Char) :=
  match skipBlanks cs with
  | '"' :: cs =>
    match readUnits cs with
    | some (units, cs) =>
      match skipBlanks cs with
      | ':' :: cs => some (textOfUnits units, cs)
      | _ => none
    | none => none
  | _ => none

mutual

/-- A value, blanks before it included, and what follows it. -/
def readValue : Nat → List Char → Option (Json × List Char)
  | 0, _ => none
  | steps + 1, cs =>
    match skipBlanks cs with
    | 'n' :: 'u' :: 'l' :: 'l' :: rest => some (.null, rest)
    | 't' :: 'r' :: 'u' :: 'e' :: rest => some (.boolean true, rest)
    | 'f' :: 'a' :: 'l' :: 's' :: 'e' :: rest => some (.boolean false, rest)
    | '"' :: rest => (readUnits rest).map fun (units, rest) => (.string (textOfUnits units), rest)
    | '[' :: rest =>
      match skipBlanks rest with
      | ']' :: rest => some (.array [], rest)
      | rest => (readItems steps rest).map fun (items, rest) => (.array items, rest)
    | '{' :: rest =>
      match skipBlanks rest with
      | '}' :: rest => some (.object [], rest)
      | rest => (readMembers steps rest).map fun (members, rest) => (.object members, rest)
    | cs => readNumber cs

/-- Items up to the end of their array. -/
def readItems : Nat → List Char → Option (List Json × List Char)
  | 0, _ => none
  | steps + 1, cs =>
    match readValue steps cs with
    | none => none
    | some (item, cs) =>
      match skipBlanks cs with
      | ',' :: cs => (readItems steps cs).map fun (items, rest) => (item :: items, rest)
      | ']' :: cs => some ([item], cs)
      | _ => none

/-- Members up to the end of their object. -/
def readMembers : Nat → List Char → Option (List (JsonText × Json) × List Char)
  | 0, _ => none
  | steps + 1, cs =>
    match readKey cs with
    | none => none
    | some (key, cs) =>
      match readValue steps cs with
      | none => none
      | some (value, cs) =>
        match skipBlanks cs with
        | ',' :: cs =>
          (readMembers steps cs).map fun (members, rest) => ((key, value) :: members, rest)
        | '}' :: cs => some ([(key, value)], cs)
        | _ => none

end

def read? (s : String) : Option Json :=
  match readValue (2 * s.length + 2) s.toList with
  | some (value, rest) => if skipBlanks rest = [] then some value else none
  | none => none

end Json

end LicenseAudit
