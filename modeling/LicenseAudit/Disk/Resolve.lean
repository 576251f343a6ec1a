import LicenseAudit.Disk.Basic

/-!
# Following a route

Following a route gives the path that it leads to, with every link on the way, and at the end,
followed as well. A step needs the permission to search the directory that it starts in. Going up
goes to the directory above the one that was reached, not back along the route, so a link followed
by a step up leads to where the link's target is.

At most `linkLimit` links are followed on one route. That, and the fact that every other step
shortens the route, is why following ends.

There are two manners of following. The disk itself goes from entry to entry. To find out the path
that a route leads to, the disk is asked for every entry on the way by its path so far, and none of
those paths may be too long for that. Where both succeed they agree.
-/

set_option autoImplicit false

namespace LicenseAudit

namespace Disk

/-- How many links are followed on one route. -/
def linkLimit : Nat := 40

/-- A manner of following a route. -/
inductive Manner where
  /-- From entry to entry. -/
  | stepwise
  /-- By asking for every entry by its path. -/
  | byPath
deriving DecidableEq

/-- Whether this manner gets to the entry at a path, if there is one. -/
def Manner.gets : Manner → Path → Bool
  | stepwise, _ => true
  | byPath, p => p.fits

/-- Takes steps from a directory. A link is left to `follow`, which is given the directory that the
link's target starts from and the steps that remain. -/
def advance (d : Disk) (m : Manner) (follow : Path → List Step → Except Refusal Path)
    (here : Path) : List Step → Except Refusal Path
  | [] => .ok here
  | .directory :: rest => advance d m follow here rest
  | .stay :: rest =>
    if d.searchable here then advance d m follow here rest else .error .denied
  | .up :: rest =>
    if d.searchable here then advance d m follow here.tail rest else .error .denied
  | .overlong :: _ => if d.searchable here then .error .tooLong else .error .denied
  | .down n :: rest =>
    if !m.gets (n :: here) then .error .tooLong
    else if !d.searchable here then .error .denied
    else
      match d.node? (n :: here) with
      | none => .error .notFound
      | some (.file _ _) => if rest = [] then .ok (n :: here) else .error .notDirectory
      | some (.directory _) => advance d m follow (n :: here) rest
      | some (.link target) => follow (if target.absolute then [] else here) (target.steps ++ rest)

/-- Takes steps from a directory, through at most so many links. -/
def walk (d : Disk) (m : Manner) : Nat → Path → List Step → Except Refusal Path
  | 0 => d.advance m fun _ _ => .error .tooManyLinks
  | links + 1 => d.advance m (d.walk m links)

/-- The path of the entry that a route leads to. A route that does not start from the root starts
there all the same. -/
def resolve (d : Disk) (r : Route) : Except Refusal Path := d.walk .stepwise linkLimit [] r.steps

/-- The path that a route leads to, found out by asking for every entry on the way by its path. -/
def canonical (d : Disk) (r : Route) : Except Refusal Path := d.walk .byPath linkLimit [] r.steps

theorem advance_stepwise_of_byPath {d : Disk} {f g : Path → List Step → Except Refusal Path}
    (hfg : ∀ here steps p, f here steps = .ok p → g here steps = .ok p) {here p : Path}
    {steps : List Step} (h : d.advance .byPath f here steps = .ok p) :
    d.advance .stepwise g here steps = .ok p := by
  induction steps generalizing here with
  | nil => exact h
  | cons s rest ih =>
    cases s with
    | directory => exact ih h
    | stay =>
      simp only [advance] at h ⊢
      split at h
      · rename_i hs
        rw [if_pos hs]
        exact ih h
      · cases h
    | up =>
      simp only [advance] at h ⊢
      split at h
      · rename_i hs
        rw [if_pos hs]
        exact ih h
      · cases h
    | overlong =>
      simp only [advance] at h
      split at h <;> cases h
    | down n =>
      simp only [advance, Manner.gets, Bool.not_true, Bool.false_eq_true, if_false] at h ⊢
      -- asking by path may refuse the name; otherwise both look at the same node
      cases hf : Path.fits (n :: here) with
      | false => simp [hf] at h
      | true =>
        cases hs : d.searchable here with
        | false => simp [hf, hs] at h
        | true =>
          simp only [hf, hs, Bool.not_true, Bool.false_eq_true, if_false] at h ⊢
          cases hn : d.node? (n :: here) with
          | none => simp [hn] at h
          | some node =>
            cases node with
            | file readable content => simpa [hn] using h
            | directory access =>
              simp only [hn] at h
              exact ih h
            | link target =>
              simp only [hn] at h
              exact hfg _ _ _ h

/-- A path that was found out by asking is that of the entry the route leads to. -/
theorem resolve_of_canonical {d : Disk} {r : Route} {p : Path} (h : d.canonical r = .ok p) :
    d.resolve r = .ok p := by
  have walk_of : ∀ (links : Nat) (here : Path) (steps : List Step) (p : Path),
      d.walk .byPath links here steps = .ok p → d.walk .stepwise links here steps = .ok p := by
    intro links
    induction links with
    | zero =>
      intro here steps p h
      exact advance_stepwise_of_byPath (fun _ _ _ hf => by cases hf) h
    | succ links ih =>
      intro here steps p h
      exact advance_stepwise_of_byPath ih h
  exact walk_of linkLimit [] r.steps p h

def stat (d : Disk) (r : Route) : Except Refusal (Path × Node) := do
  let p ← d.resolve r
  match d.node? p with
  | some node => return (p, node)
  | none => throw .notFound

/-- The route that a text stands for, where the disk takes it: a text without anything leads
nowhere, one with a zero is refused, and one that is too long is refused unseen. -/
def routeOf (text : String) : Except Refusal Route :=
  let bytes := Utf8.write text
  if bytes.contains 0 then .error .zeroInPath
  else if bytes = [] then .error .notFound
  else if textLimit < bytes.length then .error .tooLong
  else .ok (.ofBytes bytes)

/-- The route along a path, where the disk takes its text. -/
def routeTo (p : Path) : Except Refusal Route :=
  if p.fits then .ok (.ofPath p) else .error .tooLong

/-- Whether the entry at a path is or leads to a directory, as far as the user can tell. -/
def leadsToDirectory (d : Disk) (p : Path) : Bool :=
  match routeTo p >>= d.stat with
  | .ok (_, .directory _) => true
  | _ => false

/-- The bytes of the file that a text leads to. -/
def readBytes (d : Disk) (text : String) : Except Refusal ByteArray := do
  match ← d.stat (← routeOf text) with
  | (_, .file true content) => return content
  | (_, .file false _) => throw .denied
  | (_, .directory a) => throw (if a.read then .isDirectory else .denied)
  | (_, .link _) => throw .notFound

/-- The text of the file that a text leads to. -/
def readText (d : Disk) (text : String) : Except Refusal String := do
  match String.fromUTF8? (← d.readBytes text) with
  | some content => return content
  | none => throw .notText

end Disk

end LicenseAudit
