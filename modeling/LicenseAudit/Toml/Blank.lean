/-!
# Blanks, comments and line ends in TOML

Within a line only spaces and tabs separate. A comment runs to the end of its line and holds no
control character but the tab. A line ends with a line feed, a carriage return before it or not; a
carriage return by itself ends nothing.

A reader of a part of a document takes the characters that are left and gives the part together
with the characters that follow it, or `none` where the part is not there.
-/

set_option autoImplicit false

namespace LicenseAudit

namespace Toml

/-- Reads a part of a document. -/
abbrev Reader (α : Type) : Type := List Char → Option (α × List Char)

/-- Whether a character separates within a line. -/
def isBlank (c : Char) : Bool := c == ' ' || c == '\t'

/-- Whether a character may stand in a comment or a string as it is. -/
def isPrintable (c : Char) : Bool := c == '\t' || (32 ≤ c.toNat && c.toNat != 127)

def skipBlanks (cs : List Char) : List Char := cs.dropWhile isBlank

def skipNewline? : List Char → Option (List Char)
  | '\n' :: cs => some cs
  | '\r' :: '\n' :: cs => some cs
  | _ => none

/-- What is left after the printable characters of a comment. -/
def skipComment (cs : List Char) : List Char := cs.dropWhile isPrintable

/-- What is left after the end of a statement: blanks, perhaps a comment, and the end of the line or
of the document. -/
def skipLineEnd? (cs : List Char) : Option (List Char) :=
  let cs := skipBlanks cs
  let cs := match cs with
    | '#' :: cs => skipComment cs
    | cs => cs
  match cs with
  | [] => some []
  | cs => skipNewline? cs

/-- What is left after blanks, line ends and comments; a comment that has begun has to end with its
line. -/
def skipLines? : Bool → List Char → Option (List Char)
  | false, [] => some []
  | true, [] => none
  | _, '\n' :: cs => skipLines? false cs
  | _, '\r' :: '\n' :: cs => skipLines? false cs
  | false, '#' :: cs => skipLines? true cs
  | false, c :: cs => if isBlank c then skipLines? false cs else some (c :: cs)
  | true, c :: cs => if isPrintable c then skipLines? true cs else none

end Toml

end LicenseAudit
