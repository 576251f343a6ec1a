import LicenseAudit.Toml.Quoted

/-!
# Numbers in TOML

Digits may be set apart by single underscores between them. An integer is decimal, with no zero
in front, or hexadecimal, octal or binary, without a sign; it has to fit into 64 bits. A float has
decimal places, an exponent or both, and is refused where it would round to infinity — unless it is
negative, which is accepted as negative infinity.
-/

set_option autoImplicit false

namespace LicenseAudit

namespace Toml

/-- A digit to a base of at most sixteen. -/
def isDigitOf (base : Nat) (c : Char) : Bool :=
  match hexValue? c with
  | some v => v < base
  | none => false

/-- The digits that follow the first, without their underscores, and what is left. -/
def moreDigits (base : Nat) : List Char → List Char × List Char
  | [] => ([], [])
  | '_' :: c :: cs =>
    if isDigitOf base c then (c :: (moreDigits base cs).1, (moreDigits base cs).2)
    else ([], '_' :: c :: cs)
  | c :: cs =>
    if isDigitOf base c then (c :: (moreDigits base cs).1, (moreDigits base cs).2)
    else ([], c :: cs)

/-- Digits, at least one, without their underscores. -/
def readDigits (base : Nat) : Reader (List Char)
  | c :: cs =>
    if isDigitOf base c then some (c :: (moreDigits base cs).1, (moreDigits base cs).2) else none
  | [] => none

def digitsValue (base : Nat) (digits : List Char) : Nat :=
  digits.foldl (fun n c => n * base + (hexValue? c).getD 0) 0

/-- A sign, if there is one: whether it is a minus. -/
def readSign : List Char → Bool × List Char
  | '+' :: cs => (false, cs)
  | '-' :: cs => (true, cs)
  | cs => (false, cs)

/-- Decimal digits that stand for a whole number: a zero by itself, or no zero in front. -/
def readWhole : Reader (List Char)
  | '0' :: cs => some (['0'], cs)
  | cs => readDigits 10 cs

/-- Whether an integer fits into 64 bits. -/
def fits (n : Int) : Bool := -Int.pow 2 63 ≤ n && n < Int.pow 2 63

def bounded (n : Int) (rest : List Char) : Option (Int × List Char) :=
  if fits n then some (n, rest) else none

/-- An integer without a sign, to a base. -/
def readToBase (base : Nat) (cs : List Char) : Option (Int × List Char) := do
  let (digits, rest) ← readDigits base cs
  bounded (digitsValue base digits) rest

def readInteger : Reader Int
  | '0' :: 'x' :: cs => readToBase 16 cs
  | '0' :: 'o' :: cs => readToBase 8 cs
  | '0' :: 'b' :: cs => readToBase 2 cs
  | cs => do
    let (negative, cs) := readSign cs
    let (digits, rest) ← readWhole cs
    let n := digitsValue 10 digits
    bounded (if negative then -n else n) rest

def readPlaces : Reader (List Char)
  | '.' :: cs => readDigits 10 cs
  | _ => none

def readExponent : Reader Int
  | e :: cs =>
    if e = 'e' ∨ e = 'E' then do
      let (negative, cs) := readSign cs
      let (digits, rest) ← readDigits 10 cs
      let n := digitsValue 10 digits
      return (if negative then -n else n, rest)
    else none
  | [] => none

/-- The least number that rounds to infinity: half a step above the greatest double. -/
def overflowBound : Nat := Nat.pow 2 1024 - Nat.pow 2 970

/-- Whether a decimal — so many units of a power of ten, and how many digits it has — rounds to
infinity. Far from the bound the digits are counted, so that no huge power is taken. -/
def overflows (units digits : Nat) (exponent : Int) : Bool :=
  if units = 0 then false
  else if 400 < digits + exponent then true
  else if digits + exponent < 300 then false
  else if exponent < 0 then overflowBound * Nat.pow 10 exponent.natAbs ≤ units
  else overflowBound ≤ units * Nat.pow 10 exponent.natAbs

/-- The digits of a number without zeros in front. -/
def significant (digits : List Char) : List Char := digits.dropWhile (· == '0')

/-- A float with decimal places, an exponent or both. Only that it is one is kept. -/
def readDecimal (cs : List Char) : Option (Unit × List Char) := do
  let (negative, cs) := readSign cs
  let (whole, cs) ← readWhole cs
  let (places, afterPlaces) := (readPlaces cs).getD ([], cs)
  let (exponent, rest) := (readExponent afterPlaces).getD (0, afterPlaces)
  if rest.length = cs.length then none
  else
    let digits := significant (whole ++ places)
    let exponent := exponent - places.length
    if !negative && overflows (digitsValue 10 digits) digits.length exponent then none
    else return ((), rest)

def readSpecial (cs : List Char) : Option (Unit × List Char) :=
  match (readSign cs).2 with
  | 'i' :: 'n' :: 'f' :: rest => some ((), rest)
  | 'n' :: 'a' :: 'n' :: rest => some ((), rest)
  | _ => none

/-- A float. Only that it is one is kept. -/
def readFloat (cs : List Char) : Option (Unit × List Char) :=
  readDecimal cs <|> readSpecial cs

end Toml

end LicenseAudit
