import LicenseAudit.Scan.Basic

/-!
# Going through all directories

A scan lists the root of the distribution and every directory that it comes to from there. It
keeps two queues: the directories found as such, and behind them those that links lead to, which
are turned to only when none of the first is left. So a directory has its real name whenever it
has one, however short the link to it.

A directory is listed once, whatever leads to it; `unlisted` counts the directories that are still
to be listed, and the search ends because each listing lowers it and every other step shortens a
queue.

`Scan.visits` keeps every listing together with the path that it belongs to. `Scan.run` is what a
scan reports: a record for each name.
-/

set_option autoImplicit false

namespace LicenseAudit

namespace Scan

/-- The directories that are to be listed. -/
structure Queues where
  /-- Those found as such. -/
  real : List Work
  /-- Those that links lead to. -/
  linked : List Work
deriving DecidableEq

namespace Queues

def next? : Queues → Option (Work × Queues)
  | ⟨w :: real, linked⟩ => some (w, ⟨real, linked⟩)
  | ⟨[], w :: linked⟩ => some (w, ⟨[], linked⟩)
  | ⟨[], []⟩ => none

def size (q : Queues) : Nat := q.real.length + q.linked.length

/-- Adds the directories found in another. -/
def add (q : Queues) (found : Found) : Queues := ⟨q.real ++ found.real, q.linked ++ found.linked⟩

theorem size_next? {q rest : Queues} {w : Work} (h : q.next? = some (w, rest)) :
    rest.size < q.size := by
  rcases q with ⟨_ | ⟨v, real⟩, _ | ⟨u, linked⟩⟩ <;> simp only [next?, reduceCtorEq] at h <;>
    cases h <;> simp only [size, List.length_cons, List.length_nil] <;> omega

end Queues

/-- A directory that was listed, and what was found there. -/
structure Visit where
  work : Work
  found : Found
deriving DecidableEq

/-- The record of a visit. -/
def Visit.listing (v : Visit) : Listing := ⟨v.work.name, .ofList v.found.contents⟩

/-- How many directories of a disk are not among those listed. -/
def unlisted (d : Disk) (done : List Disk.Path) : Nat :=
  (d.directories.filter fun p => p ∉ done).length

theorem mem_directories {d : Disk} {p : Disk.Path} (h : d.isDirectory p = true) :
    p ∈ d.directories := by
  cases p with
  | nil => exact List.mem_cons_self
  | cons n p =>
    refine List.mem_cons_of_mem _ (List.mem_filter.mpr ⟨?_, h⟩)
    unfold Disk.isDirectory Disk.access? Disk.node? at h
    cases hf : d.nodes.find? (Disk.Path.key (n :: p)) with
    | none => simp [hf] at h
    | some entry =>
      obtain ⟨hm, hk⟩ := SortedBy.find?_eq_some_iff.mp hf
      exact List.mem_map.mpr ⟨entry, hm, Disk.Path.key_injective hk⟩

/-- Listing a directory leaves fewer to be listed. -/
theorem unlisted_cons {d : Disk} {done : List Disk.Path} {p : Disk.Path}
    (hp : d.isDirectory p = true) (hd : p ∉ done) : unlisted d (p :: done) < unlisted d done := by
  unfold unlisted
  have hsub : (d.directories.filter fun q => q ∉ p :: done) =
      (d.directories.filter fun q => q ∉ done).filter fun q => q ≠ p := by
    rw [List.filter_filter]
    refine List.filter_congr fun q _ => ?_
    by_cases hq : q = p <;> by_cases hq' : q ∈ done <;> simp [hq, hq']
  rw [hsub]
  refine List.length_filter_lt_length_iff_exists.mpr ⟨p, ?_, by simp⟩
  exact List.mem_filter.mpr ⟨mem_directories hp, by simpa using hd⟩

/-- Lists what is waiting, and everything found on the way, except what is `done`. -/
def search (d : Disk) (ignored : NameSet) (queues : Queues) (done : List Disk.Path) :
    Except Failure (List Visit) :=
  match _ : queues.next? with
  | none => .ok []
  | some (work, rest) =>
    if _ : work.path ∈ done then search d ignored rest done
    else
      match _ : list d ignored work with
      | .error failure => .error failure
      | .ok found => do
        let visits ← search d ignored (rest.add found) (work.path :: done)
        return ⟨work, found⟩ :: visits
termination_by (unlisted d done, queues.size)
decreasing_by
  · exact Prod.Lex.right _ (Queues.size_next? ‹_›)
  · exact Prod.Lex.left _ _ (unlisted_cons (isDirectory_of_list ‹_›) ‹_›)

end Scan

/-- A scan of the distribution at a place, which leaves out some names. -/
structure Scan where
  /-- The place, as the user gives it: a text. Names on the disk are bytes that need not be a text
  (`Disk.Name`), so a place that no text leads to cannot be given. Below the place every name is
  gone through, whatever its bytes. -/
  root : String
  ignored : NameSet
deriving DecidableEq

namespace Scan

/-- Plans a scan of a place, where a directory has to be. -/
def plan (d : Disk) (root : String) : Except Fault Scan :=
  match Disk.routeOf root >>= d.stat with
  | .error _ => .error (.rootMissing root)
  | .ok (_, .directory _) => .ok ⟨root, ∅⟩
  | .ok _ => .error (.rootNotDirectory root)

def ignoring (s : Scan) (names : List String) : Scan :=
  { s with ignored := s.ignored.insertAll names }

def start (d : Disk) (s : Scan) : Except Fault Disk.Path :=
  match Disk.routeOf s.root >>= d.canonical with
  | .ok path => .ok path
  | .error why => .error (.unlistable s.root why.message)

/-- Every directory listed, in the order of the scan. -/
def visits (d : Disk) (s : Scan) : Except Fault (List Visit) := do
  let path ← s.start d
  match search d s.ignored ⟨[⟨path, rootName⟩], []⟩ [] with
  | .ok visits => return visits
  | .error failure => throw failure.fault

/-- What the scan reports: a listing for each name. -/
def run (d : Disk) (s : Scan) : Except Fault Listings := do
  return .ofList ((← s.visits d).map Visit.listing)

end Scan

end LicenseAudit
