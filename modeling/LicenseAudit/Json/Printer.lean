import LicenseAudit.Json.Basic

/-!
# Writing JSON

Values are written over several lines, each level indented by two more spaces. What is empty stays
on one line. In a string only what must be escaped is: the quote, the backslash, and the control
characters below the space, which have a short form or else four hexadecimal digits.
-/

set_option autoImplicit false

namespace LicenseAudit

namespace Json

/-- A hexadecimal digit in lower case. -/
def hexDigit (n : Nat) : Char := if n < 10 then Char.ofNat (48 + n) else Char.ofNat (87 + n)

def escape (c : Char) : List Char :=
  match c with
  | '"' => ['\\', '"']
  | '\\' => ['\\', '\\']
  | '\x08' => ['\\', 'b']
  | '\x0c' => ['\\', 'f']
  | '\n' => ['\\', 'n']
  | '\r' => ['\\', 'r']
  | '\t' => ['\\', 't']
  | c =>
    if c.toNat < 32 then ['\\', 'u', '0', '0', hexDigit (c.toNat / 16), hexDigit (c.toNat % 16)]
    else [c]

def quote (s : List Char) : List Char := '"' :: s.flatMap escape ++ ['"']

/-- A string literal; a broken one is written as the replacement character. -/
def literal : JsonText → List Char
  | .text s => quote s.toList
  | .broken => quote ['\uFFFD']

/-- A new line at a level of indentation. -/
def newline (level : Nat) : List Char := '\n' :: List.replicate (2 * level) ' '

mutual

/-- The value at a level of indentation. -/
def print (level : Nat) : Json → List Char
  | null => ['n', 'u', 'l', 'l']
  | boolean true => ['t', 'r', 'u', 'e']
  | boolean false => ['f', 'a', 'l', 's', 'e']
  | number digits => digits.toList
  | string s => literal s
  | array [] => ['[', ']']
  | array (item :: items) =>
    '[' :: newline (level + 1) ++ print (level + 1) item ++ printItems level items
  | object [] => ['{', '}']
  | object (member :: members) =>
    '{' :: newline (level + 1) ++ literal member.1 ++ [':', ' '] ++ print (level + 1) member.2 ++
      printMembers level members

/-- The items after the first, and the end of the array. -/
def printItems (level : Nat) : List Json → List Char
  | [] => newline level ++ [']']
  | item :: items =>
    ',' :: newline (level + 1) ++ print (level + 1) item ++ printItems level items

/-- The members after the first, and the end of the object. -/
def printMembers (level : Nat) : List (JsonText × Json) → List Char
  | [] => newline level ++ ['}']
  | member :: members =>
    ',' :: newline (level + 1) ++ literal member.1 ++ [':', ' '] ++
      print (level + 1) member.2 ++ printMembers level members

end

/-- The value as a text over several lines. -/
def text (j : Json) : String := String.ofList (print 0 j)

end Json

end LicenseAudit
