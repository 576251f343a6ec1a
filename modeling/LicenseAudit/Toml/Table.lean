/-!
# Values and tables in TOML

A table may be written in pieces: under a header, by dotted keys, or inline. What may still be
added to it, and how, depends on how it came about, so every table keeps its `Origin`:

* a table with a header of its own takes further subtables by header only;
* a table that is only part of a longer header may still get a header of its own, once;
* a table that came from a dotted key takes more dotted keys and subtables, but no header;
* an inline table is complete, and so is every array that was written as a value.

A path through an array of tables goes through its last element. No key is ever set twice.
-/

set_option autoImplicit false

namespace LicenseAudit

namespace Toml

/-- How a table came about. -/
inductive Origin where
  /-- From a header of its own; the document itself counts as such. -/
  | header
  /-- From a longer header that goes through it. -/
  | implied
  /-- From a dotted key that goes through it. -/
  | dotted
  | inline
deriving DecidableEq

/-- A value. Floats and moments are only known to be such. -/
inductive Value where
  | string (s : String)
  | integer (n : Int)
  | float
  | boolean (b : Bool)
  | moment
  /-- An array written as a value. -/
  | array (items : List Value)
  | table (origin : Origin) (members : List (String × Value))
  /-- An array of tables that have headers. -/
  | tables (elements : List (List (String × Value)))

abbrev Members : Type := List (String × Value)

namespace Members

def get? (ms : Members) (key : String) : Option Value := ms.lookup key

def set (key : String) (v : Value) : Members → Members
  | [] => [(key, v)]
  | m :: ms => if m.1 = key then (key, v) :: ms else m :: set key v ms

/-- Adds a value under a key, which must be new. -/
def addNew (key : String) (v : Value) (ms : Members) : Option Members :=
  match ms.get? key with
  | some _ => none
  | none => some (ms.set key v)

/-- Whether a path may go on into a table that is there. -/
def mayEnter (byDots : Bool) : Origin → Bool
  | .header => !byDots
  | .implied | .dotted => true
  | .inline => false

/-- Changes the table at the end of a path, making the tables on the way. `byDots` says whether the
path is that of a dotted key or that of a header. -/
def within (byDots : Bool) (change : Origin → Members → Option Members) :
    List String → Origin → Members → Option Members
  | [], origin, ms => change origin ms
  | key :: path, _, ms =>
    match ms.get? key with
    | none =>
      let origin := if byDots then Origin.dotted else .implied
      (within byDots change path origin []).map fun inner => ms.set key (.table origin inner)
    | some (.table origin inner) =>
      if mayEnter byDots origin then
        (within byDots change path origin inner).map fun inner => ms.set key (.table origin inner)
      else none
    | some (.tables elements) =>
      match elements.getLast? with
      | none => none
      | some last =>
        (within byDots change path .header last).map fun last =>
          ms.set key (.tables (elements.dropLast ++ [last]))
    | some _ => none

/-- Sets a key, perhaps a dotted one. The table that it is set in must have come from dotted keys
itself, unless the key has no dots. -/
def assign (path : List String) (key : String) (v : Value) (ms : Members) : Option Members :=
  within true
    (fun origin inner =>
      if path ≠ [] ∧ origin ≠ .dotted then none else addNew key v inner)
    path .header ms

def openTable (key : String) (ms : Members) : Option Members :=
  match ms.get? key with
  | none => some (ms.set key (.table .header []))
  | some (.table .implied inner) => some (ms.set key (.table .header inner))
  | some _ => none

def openElement (key : String) (ms : Members) : Option Members :=
  match ms.get? key with
  | none => some (ms.set key (.tables [[]]))
  | some (.tables elements) => some (ms.set key (.tables (elements ++ [[]])))
  | some _ => none

end Members

end Toml

end LicenseAudit
