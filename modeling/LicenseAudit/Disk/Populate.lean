import LicenseAudit.Disk.Resolve

/-!
# Putting things on a disk

Files, directories and links are put at the end of a route from some directory; directories that
are missing on the way are made. What is there already is not replaced by anything of another
kind; a file written where a link is goes to where the link leads, even if nothing is there yet.
-/

set_option autoImplicit false

namespace LicenseAudit

namespace Disk

/-- Goes to the directory of this name, which is made if nothing is there. -/
def enter (d : Disk) (here : Path) (n : Name) : Except Refusal (Disk × Path) :=
  match d.node? (n :: here) with
  | none => .ok (d.put (n :: here) (.directory .full), n :: here)
  | some _ => do
    let p ← d.resolve (.ofPath (n :: here))
    if d.isDirectory p then return (d, p) else throw .notDirectory

/-- Takes one step, making the directory that it leads to. -/
def enterStep (reached : Disk × Path) : Step → Except Refusal (Disk × Path)
  | .down n => reached.1.enter reached.2 n
  | .up => .ok (reached.1, reached.2.tail)
  | .stay | .directory => .ok reached
  | .overlong => .error .tooLong

/-- Makes the directory at the end of a route, and those on the way. -/
def makeDirectory (d : Disk) (here : Path) (r : Route) : Except Refusal (Disk × Path) :=
  r.steps.foldlM enterStep (d, here)

/-- Makes the directories on the way to the last step, which has to be a name. -/
def makeAbove (d : Disk) (here : Path) (r : Route) : Except Refusal (Disk × Path) := do
  match r.steps.getLast? with
  | some (.down n) =>
    let (d, p) ← r.steps.dropLast.foldlM enterStep (d, here)
    return (d, n :: p)
  | _ => throw .isDirectory

/-- Where a file that is written at a path comes to be: at the end of the links that start there,
even if nothing is at that end yet. -/
def landing (d : Disk) : Nat → Path → Except Refusal Path
  | 0, _ => .error .tooManyLinks
  | links + 1, p =>
    match d.node? p with
    | some (.link target) => do
      let above ← d.walk .stepwise linkLimit (if target.absolute then [] else p.tail)
        target.steps.dropLast
      match target.steps.getLast? with
      | some (.down n) =>
        if d.isDirectory above then landing d links (n :: above) else throw .notDirectory
      | _ => throw .isDirectory
    | _ => .ok p

/-- Writes a file at the end of a route. -/
def writeFile (d : Disk) (here : Path) (r : Route) (content : ByteArray) :
    Except Refusal Disk := do
  let (d, p) ← d.makeAbove here r
  let p ← d.landing (linkLimit + 1) p
  if d.isDirectory p then throw .isDirectory
  return d.put p (.file true content)

/-- Makes a link at the end of a route, where nothing may be yet. -/
def makeLink (d : Disk) (here : Path) (r : Route) (target : Route) : Except Refusal Disk := do
  let (d, p) ← d.makeAbove here r
  match d.node? p with
  | none => return d.put p (.link target)
  | some _ => throw .alreadyThere

/-- Sets what may be done with the file or directory at a path. -/
def restrict (d : Disk) (p : Path) (a : Access) : Disk :=
  match d.node? p with
  | some (.file _ content) => d.put p (.file a.read content)
  | some (.directory _) => d.put p (.directory a)
  | _ => d

end Disk

end LicenseAudit
