import LicenseAudit.Report.Basic

/-!
# What can go wrong

Every operation that can fail says why with a `Fault`, which names the cause and carries what it
is about. The wording is in one place, `Fault.message`.
-/

set_option autoImplicit false

namespace LicenseAudit

inductive Fault where
  | unknownLicense (id : String)
  | unknownOrganisation (id : String)
  /-- A resource refers to a notice without a text. -/
  | unknownNotice (id : String)
  | duplicateDirectory (name : String)
  | duplicateLicense (id : String)
  | duplicateOrganisation (id : String)
  /-- A parameter is declared, or supplied, more than once. -/
  | duplicateParameter (license parameter : String)
  | parameterMismatch (license : String) (missing unexpected : List String)
  /-- There is nothing where the distribution should be. -/
  | rootMissing (path : String)
  | rootNotDirectory (path : String)
  /-- A directory cannot be listed, or cannot be reached to be listed. -/
  | unlistable (path reason : String)
  | settings (text : String)
  | invalid (report : Report)
deriving DecidableEq

namespace Fault

/-- A list of names, in the brackets of a message. -/
def bracketed (names : List String) : String := "[" ++ String.intercalate ", " names ++ "]"

def message : Fault → String
  | unknownLicense id => "Unknown license: " ++ id
  | unknownOrganisation id => "Unknown organisation: " ++ id
  | unknownNotice id => "Unknown notice: " ++ id
  | duplicateDirectory name => "Duplicate directory: " ++ name
  | duplicateLicense id => "Duplicate license: " ++ id
  | duplicateOrganisation id => "Duplicate organisation: " ++ id
  | duplicateParameter license parameter =>
    "Duplicate parameter '" ++ parameter ++ "' for license " ++ license
  | parameterMismatch license missing unexpected =>
    "Parameters do not match license " ++ license ++ ": missing " ++ bracketed missing ++
      ", unexpected " ++ bracketed unexpected
  | rootMissing path => "Scan root does not exist: " ++ path
  | rootNotDirectory path => "Scan root is not a directory: " ++ path
  | unlistable path reason => "Cannot list directory " ++ path ++ ": " ++ reason
  | settings text => "Configuration error: " ++ text
  | invalid report => report.failureText

end Fault

end LicenseAudit
