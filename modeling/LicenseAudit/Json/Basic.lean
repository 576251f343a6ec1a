/-!
# JSON values

A JSON value as it is written: numbers keep their digits, and objects keep their members in order,
repeats included. A string literal may escape half of a surrogate pair, and then it denotes no
text; such a literal is `broken`, because a reader that has no use for it must still get past it.
-/

set_option autoImplicit false

namespace LicenseAudit

/-- A string literal: the text that it denotes, if it denotes one. -/
inductive JsonText where
  /-- A literal that denotes a text. -/
  | text (s : String)
  /-- A literal that escapes half of a surrogate pair. -/
  | broken
deriving DecidableEq

inductive Json where
  | null
  | boolean (b : Bool)
  /-- A number, as it is written. -/
  | number (literal : String)
  | string (s : JsonText)
  | array (items : List Json)
  | object (members : List (JsonText × Json))

namespace Json

def ofText (s : String) : Json := string (.text s)

def ofMembers (members : List (String × Json)) : Json :=
  object (members.map fun m => (.text m.1, m.2))

end Json

end LicenseAudit
