import LicenseAudit.Fault
import LicenseAudit.License.Template

/-!
# Licenses

A license is known by its id alone. It declares which parameters its text expects; a use of the
license has to supply exactly these, no more and no fewer, and only then is there a text.
-/

set_option autoImplicit false

namespace LicenseAudit

/-- The first element of a list that is among `seen` or equal to an earlier one. -/
def firstRepeat? (seen : List String) : List String → Option String
  | [] => none
  | x :: xs => if x ∈ seen then some x else firstRepeat? (x :: seen) xs

/-- A license that content may be released under. -/
structure License where
  id : String
  name : String
  url : String
  /-- Whether content under it must link to its source. -/
  sourceRequired : Bool
  /-- Its text, with places for the parameters. -/
  template : String
  /-- The names of the parameters that its text expects. -/
  expected : NameSet
deriving DecidableEq, Inhabited

abbrev Licenses : Type := SortedBy License.id

namespace License

/-- Declares a license; a parameter name may be declared once only. -/
def declare (id name url : String) (sourceRequired : Bool) (template : String)
    (expected : List String) : Except Fault License :=
  match firstRepeat? [] expected with
  | some parameter => .error (.duplicateParameter id parameter)
  | none => .ok ⟨id, name, url, sourceRequired, template, SortedBy.ofList expected⟩

/-- The expected parameters that are not supplied, in order. -/
def missing (l : License) (values : Parameters) : List String :=
  l.expected.toList.filter fun name => !values.contains name

/-- The supplied parameters that are not expected, in order. -/
def unexpected (l : License) (values : Parameters) : List String :=
  values.keys.filter fun name => !l.expected.contains name

/-- The parameters supplied are exactly the ones expected. -/
def Accepts (l : License) (values : Parameters) : Prop :=
  l.missing values = [] ∧ l.unexpected values = []

instance (l : License) (values : Parameters) : Decidable (l.Accepts values) :=
  inferInstanceAs (Decidable (_ ∧ _))

/-- Refuses parameters other than the ones expected. -/
def checkParameters (l : License) (values : Parameters) : Except Fault Unit :=
  if l.Accepts values then .ok ()
  else .error (.parameterMismatch l.id (l.missing values) (l.unexpected values))

/-- The license text with its parameters filled in. -/
def text (l : License) (values : Parameters) : Except Fault String := do
  l.checkParameters values
  return String.ofList ((Template.ofText l.template.toList).fill values)

end License

end LicenseAudit
