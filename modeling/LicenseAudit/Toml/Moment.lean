import LicenseAudit.Toml.Blank

/-!
# Dates and times in TOML

A moment is a date, a time, or both with a `T` or a space between them and perhaps an offset
after them. Months, days, hours and minutes must be possible ones, the twenty-ninth of February
only in a leap year; a second may be a leap second. Only that it is a moment is kept.
-/

set_option autoImplicit false

namespace LicenseAudit

namespace Toml

def readDigit : Reader Nat
  | c :: cs => if c.isDigit then some (c.toNat - 48, cs) else none
  | [] => none

/-- A number of two digits, within bounds. -/
def readPair (least greatest : Nat) (cs : List Char) : Option (Nat × List Char) := do
  let (tens, cs) ← readDigit cs
  let (ones, cs) ← readDigit cs
  let n := tens * 10 + ones
  if least ≤ n ∧ n ≤ greatest then return (n, cs) else none

def readYear (cs : List Char) : Option (Nat × List Char) := do
  let (high, cs) ← readPair 0 99 cs
  let (low, cs) ← readPair 0 99 cs
  return (high * 100 + low, cs)

def skipChar? (c : Char) : List Char → Option (List Char)
  | d :: cs => if d = c then some cs else none
  | [] => none

def daysIn (year month : Nat) : Nat :=
  if month = 2 then if year % 4 = 0 ∧ (year % 100 ≠ 0 ∨ year % 400 = 0) then 29 else 28
  else if month = 4 ∨ month = 6 ∨ month = 9 ∨ month = 11 then 30
  else 31

def skipDate? (cs : List Char) : Option (List Char) := do
  let (year, cs) ← readYear cs
  let cs ← skipChar? '-' cs
  let (month, cs) ← readPair 1 12 cs
  let cs ← skipChar? '-' cs
  let (_, cs) ← readPair 1 (daysIn year month) cs
  return cs

def skipFraction? (cs : List Char) : Option (List Char) := do
  let cs ← skipChar? '.' cs
  let (_, cs) ← readDigit cs
  return cs.dropWhile Char.isDigit

def skipMinutes? (cs : List Char) : Option (List Char) := do
  let (_, cs) ← readPair 0 23 cs
  let cs ← skipChar? ':' cs
  let (_, cs) ← readPair 0 59 cs
  return cs

def skipTime? (cs : List Char) : Option (List Char) := do
  let cs ← skipMinutes? cs
  let cs ← skipChar? ':' cs
  let (_, cs) ← readPair 0 60 cs
  return (skipFraction? cs).getD cs

def skipOffset? : List Char → Option (List Char)
  | 'Z' :: cs | 'z' :: cs => some cs
  | '+' :: cs | '-' :: cs => skipMinutes? cs
  | _ => none

def skipTimeAfterDate? : List Char → Option (List Char)
  | 'T' :: cs | 't' :: cs | ' ' :: cs => do
    let cs ← skipTime? cs
    return (skipOffset? cs).getD cs
  | _ => none

/-- A moment. Only that it is one is kept. -/
def readMoment (cs : List Char) : Option (Unit × List Char) :=
  match skipDate? cs with
  | some cs => some ((), (skipTimeAfterDate? cs).getD cs)
  | none => (skipTime? cs).map ((), ·)

end Toml

end LicenseAudit
