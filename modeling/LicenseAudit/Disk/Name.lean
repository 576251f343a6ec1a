import LicenseAudit.Text.Utf8

/-!
# Names and paths on disk

An entry of a directory has a `Name`: some bytes, at most 255, without a zero or a slash, and not
the dots that stand for the directory itself and the one above. A `Path` is the one path of an
entry that goes through no link. It is kept from the inside out — the entry's own name first, the
root of the disk is `[]` — so that the directory above an entry is the tail of its path. A path may
be longer than any text that the disk takes, for entries are made from wherever one stands; such an
entry is there, but cannot be asked for by its path.

What a user writes is a `Route`: steps that are yet to be followed.
-/

set_option autoImplicit false

namespace LicenseAudit

namespace Disk

def slash : UInt8 := 47

/-- The bytes that the longest name has. -/
def nameLimit : Nat := 255

/-- The bytes that the longest text has that the disk takes. -/
def textLimit : Nat := 4095

/-- Whether an entry of a directory can have these bytes as its name. -/
def isName (bytes : List UInt8) : Bool :=
  bytes != [] && bytes != [46] && bytes != [46, 46] && !bytes.contains slash &&
    !bytes.contains 0 && bytes.length ≤ nameLimit

/-- The name of an entry of a directory. -/
structure Name where
  bytes : List UInt8
  valid : isName bytes = true
deriving DecidableEq

namespace Name

theorem ext_bytes {m n : Name} (h : m.bytes = n.bytes) : m = n := by
  cases m; cases n; cases h; rfl

def ofBytes? (bytes : List UInt8) : Option Name :=
  if h : isName bytes = true then some ⟨bytes, h⟩ else none

def text (n : Name) : String := Utf8.read n.bytes

end Name

/-- The path of an entry that goes through no link, the entry's own name first. -/
abbrev Path : Type := List Name

namespace Path

/-- What paths are ordered by. Entries of one directory stand in the order of their names. -/
def key (p : Path) : List (List UInt8) := p.map Name.bytes

theorem key_injective {p q : Path} (h : key p = key q) : p = q := by
  induction p generalizing q with
  | nil => cases q with
    | nil => rfl
    | cons n q => simp [key] at h
  | cons m p ih => cases q with
    | nil => simp [key] at h
    | cons n q =>
      simp only [key, List.map_cons, List.cons.injEq] at h
      rw [Name.ext_bytes h.1, ih h.2]

/-- The path as text, from the root of the disk. -/
def text (p : Path) : String := "/" ++ String.intercalate "/" (p.reverse.map Name.text)

/-- The bytes that the path takes: those of each name, and a slash before it. -/
def size : Path → Nat
  | [] => 0
  | n :: p => size p + 1 + n.bytes.length

/-- Whether the disk can be asked for an entry by its path. -/
def fits (p : Path) : Bool := p.size ≤ textLimit

end Path

inductive Step where
  | stay
  /-- Go to the directory above; the root is above itself. -/
  | up
  | down (name : Name)
  /-- Go to an entry whose name is too long for any to have it. -/
  | overlong
  /-- Insist that a directory has been reached. -/
  | directory
deriving DecidableEq

/-- A way to an entry: where it starts, and the steps to take. -/
structure Route where
  absolute : Bool
  steps : List Step
deriving DecidableEq

namespace Route

/-- The pieces of a text between its slashes. -/
def pieces : List UInt8 → List (List UInt8)
  | [] => [[]]
  | b :: bs =>
    if b = slash then [] :: pieces bs
    else
      match pieces bs with
      | p :: ps => (b :: p) :: ps
      | [] => [[b]]

/-- The step that a piece stands for; an empty piece stands for none. -/
def stepOf? (piece : List UInt8) : Option Step :=
  if piece = [46] then some .stay
  else if piece = [46, 46] then some .up
  else if nameLimit < piece.length then some .overlong
  else (Name.ofBytes? piece).map .down

/-- The route that a text stands for. Several slashes are as one; a slash at the end insists on a
directory. -/
def ofBytes (bytes : List UInt8) : Route where
  absolute := bytes.head? == some slash
  steps := (pieces bytes).filterMap stepOf? ++
    if bytes.getLast? == some slash then [.directory] else []

def ofPath (p : Path) : Route := ⟨true, p.reverse.map .down⟩

end Route

end Disk

end LicenseAudit
