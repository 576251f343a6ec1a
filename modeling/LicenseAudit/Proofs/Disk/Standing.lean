import LicenseAudit.Proofs.Disk.Leading
import LicenseAudit.Proofs.Ordered.Insertion

/-!
# Paths that can be gone down

A path may name an entry below a file or below nothing at all, since a disk is only a table. A path
`Stands` when there is a directory at each of its prefixes, so that one can go down it without
meeting a link. **Whatever a route leads to lies in a directory that stands**
(`stands_tail_of_canonical`), so every directory that is found by following routes stands, and
following the route along such a path leads back to it (`canonical_ofPath_eq`). Steps from such a
directory are followed to where they lead if every directory may be searched and the links on the
way are few enough (`LeadsTo.walk_eq`).

`directoryAt?` says where the directory is that an entry stands for: a directory for itself, a link
for the one that its metadata shows.
-/

set_option autoImplicit false

namespace LicenseAudit

namespace Disk

/-- There are directories all the way to this path. -/
def Stands (d : Disk) : Path → Prop
  | [] => True
  | n :: p => d.isDirectory (n :: p) = true ∧ d.Stands p

variable {d : Disk}

theorem node?_of_isDirectory {p : Path} (h : d.isDirectory p = true) :
    ∃ a, d.node? p = some (.directory a) := by
  unfold isDirectory access? at h
  split at h
  · exact ⟨_, ‹_›⟩
  · cases h

theorem isDirectory_of_node? {p : Path} {a : Access} (h : d.node? p = some (.directory a)) :
    d.isDirectory p = true := by
  simp only [isDirectory, access?, h, Option.isSome_some]

theorem Stands.tail {p : Path} (h : d.Stands p) : d.Stands p.tail := by
  cases p with
  | nil => trivial
  | cons n p => exact h.2

theorem Stands.of_tail {p : Path} (hd : d.isDirectory p = true) (h : d.Stands p.tail) :
    d.Stands p := by
  cases p with
  | nil => trivial
  | cons n p => exact ⟨hd, h⟩

theorem Stands.isDirectory {p : Path} (h : d.Stands p) : d.isDirectory p = true := by
  cases p with
  | nil => rfl
  | cons n p => exact h.1

/-! ## Where steps lead -/

theorem LeadsTo.stands_tail {links : Nat} {p q : Path} {steps : List Step}
    (h : d.LeadsTo links p steps q) (hp : d.Stands p) : d.Stands q.tail := by
  induction h with
  | here => exact hp.tail
  | directory _ ih => exact ih hp
  | stay _ ih => exact ih hp
  | up _ ih => exact ih hp.tail
  | file _ => exact hp
  | down entry _ ih => exact ih ⟨isDirectory_of_node? entry, hp⟩
  | through _ _ ih =>
    -- a target starts from the root, or from the directory that holds the link
    apply ih
    split
    · trivial
    · exact hp

theorem stands_tail_of_walk {m : Manner} {links : Nat} {steps : List Step} {here q : Path}
    (hh : d.Stands here) (h : d.walk m links here steps = .ok q) : d.Stands q.tail := by
  obtain ⟨_, way⟩ := leadsTo_of_walk h
  exact way.stands_tail hh

theorem stands_tail_of_canonical {r : Route} {q : Path} (h : d.canonical r = .ok q) :
    d.Stands q.tail := by
  have hw : d.walk .byPath linkLimit [] r.steps = .ok q := h
  have hroot : d.Stands [] := trivial
  exact stands_tail_of_walk hroot hw

/-! ## Going down a path that stands -/

/-- Going down from the root to a directory comes before any steps from there. -/
theorem LeadsTo.from_root {links : Nat} {p q : Path} {rest : List Step}
    (h : d.LeadsTo links p rest q) (hp : d.Stands p) :
    d.LeadsTo links [] (p.reverse.map .down ++ rest) q := by
  induction p generalizing rest with
  | nil => exact h
  | cons n p ih =>
    obtain ⟨a, hn⟩ := node?_of_isDirectory hp.1
    rw [List.reverse_cons, List.map_append, List.append_assoc]
    exact ih (.down hn h) hp.2

/-- The route along the path of a directory leads to it, if anywhere. -/
theorem canonical_ofPath_eq {p q : Path} (hp : d.Stands p) (h : d.canonical (.ofPath p) = .ok q) :
    q = p := by
  have way : d.LeadsTo 0 [] (p.reverse.map .down ++ []) p := LeadsTo.from_root (.here p) hp
  rw [List.append_nil] at way
  exact way.eq_of_walk h

/-- Where an entry of a directory leads, the route along its path leads. -/
theorem LeadsTo.ofPath {links : Nat} {n : Name} {p q : Path} (h : d.LeadsTo links p [.down n] q)
    (hp : d.Stands p) : d.LeadsTo links [] (Route.ofPath (n :: p)).steps q := by
  show d.LeadsTo links [] ((n :: p).reverse.map .down) q
  rw [List.reverse_cons, List.map_append]
  exact h.from_root hp

/-! ## Steps that are followed -/

/-- Every directory may be searched. -/
def Searchable (d : Disk) : Prop := ∀ p, d.isDirectory p = true → d.searchable p = true

/-- Where every directory may be searched only too many links are in the way. -/
theorem LeadsTo.walk_eq {links limit : Nat} {p q : Path} {steps : List Step}
    (h : d.LeadsTo links p steps q) (hd : d.Searchable) (hp : d.Stands p) (hl : links ≤ limit) :
    d.walk .stepwise limit p steps = .ok q := by
  induction h generalizing limit with
  | here => exact walk_nil
  | directory _ ih =>
    rw [walk_directory]
    exact ih hp hl
  | stay _ ih =>
    rw [walk_stay, if_pos (hd _ hp.isDirectory)]
    exact ih hp hl
  | up _ ih =>
    rw [walk_up, if_pos (hd _ hp.isDirectory)]
    exact ih hp.tail hl
  | file entry =>
    rw [walk_down_file entry]
    simp only [Manner.gets, hd _ hp.isDirectory, Bool.not_true, Bool.false_eq_true, if_false]
  | down entry _ ih =>
    rw [walk_down_directory entry]
    simp only [Manner.gets, hd _ hp.isDirectory, Bool.not_true, Bool.false_eq_true, if_false]
    exact ih ⟨isDirectory_of_node? entry, hp⟩ hl
  | @through links p q n rest target entry _ ih =>
    obtain ⟨limit, rfl⟩ : ∃ l, limit = l + 1 := ⟨limit - 1, by omega⟩
    rw [walk_down_link entry]
    simp only [Manner.gets, hd _ hp.isDirectory, Bool.not_true, Bool.false_eq_true, if_false]
    have hstart : d.Stands (if target.absolute then [] else p) := by
      split
      · trivial
      · exact hp
    exact ih hstart (Nat.le_of_succ_le_succ hl)

/-! ## The directory that an entry stands for -/

/-- The directory that an entry stands for: it is one, or it is a link whose metadata shows one. -/
def directoryAt? (d : Disk) (path : Path) : Node → Option Path
  | .directory _ => some path
  | .file _ _ => none
  | .link _ =>
    match routeTo path >>= d.stat with
    | .ok (q, .directory _) => some q
    | _ => none

theorem mem_entries {p : Path} {n : Name} {node : Node} :
    (n, node) ∈ d.entries p ↔ d.node? (n :: p) = some node := by
  simp only [entries, List.mem_filterMap, node?, Option.map_eq_some_iff,
    SortedBy.find?_eq_some_iff]
  constructor
  · intro h
    obtain ⟨⟨path, node'⟩, hm, he⟩ := h
    cases path with
    | nil => cases he
    | cons n' p' =>
      simp only [entryOf?] at he
      split at he
      · cases he
        subst_vars
        exact ⟨_, ⟨hm, rfl⟩, rfl⟩
      · cases he
  · intro h
    obtain ⟨⟨path, node'⟩, ⟨hm, hk⟩, rfl⟩ := h
    cases Path.key_injective hk
    exact ⟨_, hm, by simp [entryOf?]⟩

/-- The entries of a directory stand in the order of the bytes of their names. -/
theorem entries_ascending (d : Disk) (p : Path) :
    (d.entries p).Pairwise fun e e' => compare e.1.bytes e'.1.bytes = .lt := by
  refine List.pairwise_filterMap.mpr (d.nodes.ascending.imp ?_)
  intro entry entry' hlt e he e' he'
  obtain ⟨path, node⟩ := entry
  obtain ⟨path', node'⟩ := entry'
  cases path with
  | nil => cases he
  | cons n q =>
    cases path' with
    | nil => cases he'
    | cons n' q' =>
      simp only [entryOf?, Option.ite_none_right_eq_some, Option.some.injEq] at he he'
      obtain ⟨rfl, rfl⟩ := he
      obtain ⟨rfl, rfl⟩ := he'
      -- below one directory the keys differ in the name alone
      have hkey : compare (n.bytes :: Path.key q') (n'.bytes :: Path.key q') = .lt := hlt
      have hsame : compare (Path.key q') (Path.key q') = .eq := Std.ReflCmp.compare_self
      rwa [List.compare_cons_cons, hsame, Ordering.then_eq] at hkey

theorem node?_put {p q : Path} {node : Node} (hq : q ≠ []) :
    (d.put p node).node? q = if q = p then some node else d.node? q := by
  cases q with
  | nil => exact absurd rfl hq
  | cons n q =>
    have hkey : Path.key p = Path.key (n :: q) ↔ n :: q = p :=
      ⟨fun h => (Path.key_injective h).symm, fun h => h ▸ rfl⟩
    simp only [node?, put, SortedBy.find?_put, hkey]
    split <;> rfl

theorem stat_eq_ok {r : Route} {q : Path} {node : Node} (h : d.stat r = .ok (q, node)) :
    d.resolve r = .ok q ∧ d.node? q = some node := by
  unfold stat at h
  cases hr : d.resolve r with
  | error why =>
    rw [hr] at h
    cases h
  | ok p =>
    cases hn : d.node? p with
    | none =>
      simp only [hr, hn, bind, Except.bind] at h
      cases h
    | some shown =>
      simp only [hr, hn, bind, Except.bind] at h
      cases h
      exact ⟨rfl, hn⟩

/-- Where the metadata of a link shows a directory, following the link leads to it. -/
theorem directoryAt?_link {path q : Path} {target : Route}
    (h : d.directoryAt? path (.link target) = some q) :
    d.resolve (.ofPath path) = .ok q ∧ d.isDirectory q = true := by
  simp only [directoryAt?] at h
  split at h
  · rename_i a hs
    cases h
    unfold routeTo at hs
    split at hs
    · obtain ⟨hr, hn⟩ := stat_eq_ok hs
      exact ⟨hr, isDirectory_of_node? hn⟩
    · cases hs
  · cases h

theorem leadsToDirectory_iff {path : Path} {target : Route} :
    d.leadsToDirectory path = true ↔ ∃ q, d.directoryAt? path (.link target) = some q := by
  unfold leadsToDirectory directoryAt?
  cases routeTo path >>= d.stat with
  | error why => simp
  | ok shown =>
    obtain ⟨q, node⟩ := shown
    cases node with
    | file readable content => simp
    | directory a => simp
    | link target' => simp

/-- A link that is seen to lead to a directory leads there however it is followed. -/
theorem canonical_link_eq {path p q : Path} {target : Route}
    (h : d.directoryAt? path (.link target) = some q) (hc : d.canonical (.ofPath path) = .ok p) :
    p = q := by
  have hr := resolve_of_canonical hc
  rw [(directoryAt?_link h).1] at hr
  cases hr
  rfl

end Disk

end LicenseAudit
