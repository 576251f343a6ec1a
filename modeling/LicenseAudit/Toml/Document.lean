import LicenseAudit.Toml.Moment
import LicenseAudit.Toml.Number
import LicenseAudit.Toml.Table

/-!
# TOML documents

A document is a list of statements: headers, which say which table the keys after them belong to,
and keys with their values. `statements?` reads them and `assemble` puts their tables together.

Values nest at most `nestingLimit` deep, and a key has at most that many parts; this is what the
reading of values recurs on. Lists of items, members and statements are read with an allowance of
steps that is the number of characters, of which each step takes at least one.
-/

set_option autoImplicit false

namespace LicenseAudit

namespace Toml

/-- How deep values nest at most, and how many parts a key has at most. -/
def nestingLimit : Nat := 79

/-- Whether a character may stand in a key without quotes. -/
def isBareKeyChar (c : Char) : Bool := c.isAlphanum || c == '-' || c == '_'

def readKeyPart (cs : List Char) : Option (String × List Char) :=
  match readLineString cs with
  | some (text, rest) => some (String.ofList text, rest)
  | none =>
    match cs.takeWhile isBareKeyChar with
    | [] => none
    | text => some (String.ofList text, cs.dropWhile isBareKeyChar)

/-- The parts of a key, with dots between them and blanks around them. -/
def readKeyParts : Nat → List Char → Option (List String × List Char)
  | 0, _ => none
  | steps + 1, cs => do
    let (part, cs) ← readKeyPart (skipBlanks cs)
    match skipBlanks cs with
    | '.' :: cs =>
      let (parts, rest) ← readKeyParts steps cs
      return (part :: parts, rest)
    | cs => return ([part], cs)

/-- A key, and blanks around it. -/
def readKey (cs : List Char) : Option (List String × List Char) := readKeyParts nestingLimit cs

def readScalar (cs : List Char) : Option (Value × List Char) :=
  match cs with
  | 't' :: 'r' :: 'u' :: 'e' :: rest => some (.boolean true, rest)
  | 'f' :: 'a' :: 'l' :: 's' :: 'e' :: rest => some (.boolean false, rest)
  | cs =>
    (readString cs).map (fun (text, rest) => (.string (String.ofList text), rest)) <|>
    (readMoment cs).map (fun (_, rest) => (.moment, rest)) <|>
    (readFloat cs).map (fun (_, rest) => (.float, rest)) <|>
    (readInteger cs).map (fun (n, rest) => (.integer n, rest))

/-- The items of an array after its opening bracket or a comma. -/
def readItems (value : Reader Value) : Nat → List Char → Option (List Value × List Char)
  | 0, _ => none
  | steps + 1, cs => do
    match ← skipLines? false cs with
    | ']' :: rest => return ([], rest)
    | cs =>
      let (item, cs) ← value cs
      match ← skipLines? false cs with
      | ',' :: cs =>
        let (items, rest) ← readItems value steps cs
        return (item :: items, rest)
      | ']' :: rest => return ([item], rest)
      | _ => none

/-- A key and its value: the tables on the way to the key, the key, and the value. -/
def readAssignment (value : Reader Value) :
    List Char → Option ((List String × String × Value) × List Char) :=
  fun cs => do
    let (key, cs) ← readKey cs
    match cs with
    | '=' :: cs =>
      let (v, rest) ← value (skipBlanks cs)
      return ((key.dropLast, key.getLast?.getD "", v), rest)
    | _ => none

/-- The members of an inline table up to its end, put into a table. -/
def readMembers (value : Reader Value) : Nat → Members → List Char → Option (Members × List Char)
  | 0, _, _ => none
  | steps + 1, ms, cs => do
    let ((path, key, v), cs) ← readAssignment value cs
    let ms ← ms.assign path key v
    match skipBlanks cs with
    | ',' :: cs => readMembers value steps ms cs
    | '}' :: rest => return (ms, rest)
    | _ => none

/-- A value in which others nest at most so deep. -/
def readValue : Nat → List Char → Option (Value × List Char)
  | 0, cs => readScalar cs
  | depth + 1, cs =>
    match cs with
    | '[' :: cs =>
      (readItems (readValue depth) (cs.length + 1) cs).map fun (items, rest) => (.array items, rest)
    | '{' :: cs =>
      match skipBlanks cs with
      | '}' :: rest => some (.table .inline [], rest)
      | cs =>
        (readMembers (readValue depth) (cs.length + 1) [] cs).map fun (ms, rest) =>
          (.table .inline ms, rest)
    | cs => readScalar cs

inductive Statement where
  /-- The keys that follow belong to this table. -/
  | header (path : List String)
  /-- The keys that follow belong to a new element of this array of tables. -/
  | element (path : List String)
  /-- A key and its value: the tables on the way to the key, the key, and the value. -/
  | assignment (path : List String) (key : String) (value : Value)

/-- A statement, without the end of its line. -/
def readStatement : List Char → Option (Statement × List Char)
  | '[' :: '[' :: cs => do
    let (path, cs) ← readKey cs
    match cs with
    | ']' :: ']' :: rest => return (.element path, rest)
    | _ => none
  | '[' :: cs => do
    let (path, cs) ← readKey cs
    match cs with
    | ']' :: rest => return (.header path, rest)
    | _ => none
  | cs => do
    let ((path, key, v), rest) ← readAssignment (readValue nestingLimit) cs
    return (.assignment path key v, rest)

/-- The statements up to the end of a document. -/
def readStatements : Nat → List Char → Option (List Statement)
  | 0, _ => none
  | steps + 1, cs =>
    match skipBlanks cs with
    | [] => some []
    | '#' :: cs => do readStatements steps (← skipLineEnd? ('#' :: cs))
    | cs =>
      match skipNewline? cs with
      | some cs => readStatements steps cs
      | none => do
        let (statement, cs) ← readStatement cs
        let statements ← readStatements steps (← skipLineEnd? cs)
        return statement :: statements

/-- The statements of a document, which may begin with a byte order mark. -/
def statements? (s : String) : Option (List Statement) :=
  match s.toList with
  | '\uFEFF' :: cs => readStatements (cs.length + 1) cs
  | cs => readStatements (cs.length + 1) cs

/-- A document that is being put together. -/
structure Assembly where
  root : Members
  /-- The path of the table that keys belong to. -/
  current : List String

def Assembly.add (a : Assembly) : Statement → Option Assembly
  | .header path => do
    let root ← Members.within false (fun _ ms => ms.openTable (path.getLast?.getD ""))
      path.dropLast .header a.root
    return ⟨root, path⟩
  | .element path => do
    let root ← Members.within false (fun _ ms => ms.openElement (path.getLast?.getD ""))
      path.dropLast .header a.root
    return ⟨root, path⟩
  | .assignment path key v => do
    let root ← Members.within false (fun _ ms => ms.assign path key v) a.current .header a.root
    return ⟨root, a.current⟩

def assemble (statements : List Statement) : Option Members :=
  (statements.foldlM Assembly.add ⟨[], []⟩).map (·.root)

def read? (s : String) : Option Members := statements? s >>= assemble

end Toml

end LicenseAudit
