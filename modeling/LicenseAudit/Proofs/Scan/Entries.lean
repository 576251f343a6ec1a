import LicenseAudit.Proofs.Disk.Standing
import LicenseAudit.Proofs.Ordered.Insertion
import LicenseAudit.Scan.Search

/-!
# What a listing finds

`Scan.list` goes through the entries of a directory and stops at the first that fails. Where it
does not fail it says exactly what `Scan.holds` says: of the entries that are not left out, those
that stand for no directory are content, and each of the others is to be listed in turn, under the
path that it stands for. Moreover every directory to go to has then been reached by its path
(`list_spec`).
-/

set_option autoImplicit false

namespace LicenseAudit

namespace Scan

/-- The entries of a directory that are not left out. -/
def kept (d : Disk) (ignored : NameSet) (p : Disk.Path) : List (Disk.Name × Disk.Node) :=
  (d.entries p).filter fun e => !ignored.contains e.1.text

/-- The name of an entry that stands for no directory. -/
def content? (d : Disk) (p : Disk.Path) (e : Disk.Name × Disk.Node) : Option String :=
  if (d.directoryAt? (e.1 :: p) e.2).isSome then none else some e.1.text

/-- The entry as a subdirectory. -/
def realChild? (work : Work) (e : Disk.Name × Disk.Node) : Option Work :=
  match e.2 with
  | .directory _ => some ⟨e.1 :: work.path, childName work.name e.1.text⟩
  | _ => none

/-- The directory that the entry is a link to. -/
def linkedChild? (d : Disk) (work : Work) (e : Disk.Name × Disk.Node) : Option Work :=
  match e.2 with
  | .link target =>
    (d.directoryAt? (e.1 :: work.path) (.link target)).map fun q =>
      ⟨q, childName work.name e.1.text⟩
  | _ => none

/-- What a directory holds. -/
def holds (d : Disk) (ignored : NameSet) (work : Work) : Found where
  contents := (kept d ignored work.path).filterMap (content? d work.path)
  real := (kept d ignored work.path).filterMap (realChild? work)
  linked := (kept d ignored work.path).filterMap (linkedChild? d work)

variable {d : Disk} {ignored : NameSet}

theorem mem_kept {p : Disk.Path} {e : Disk.Name × Disk.Node} :
    e ∈ kept d ignored p ↔ e ∈ d.entries p ∧ e.1.text ∉ ignored := by
  rw [kept, List.mem_filter, Bool.not_eq_true', NameSet.contains_eq_false_iff]

theorem isDirectoryEntry_iff {path : Disk.Path} {node : Disk.Node} :
    isDirectoryEntry d path node = true ↔ (d.directoryAt? path node).isSome = true := by
  cases node with
  | file readable content => simp [isDirectoryEntry, Disk.directoryAt?]
  | directory a => simp [isDirectoryEntry, Disk.directoryAt?]
  | link target => rw [isDirectoryEntry, Disk.leadsToDirectory_iff, Option.isSome_iff_exists]

/-- What is found once one more entry was taken. -/
def grow (d : Disk) (work : Work) (found : Found) (e : Disk.Name × Disk.Node) : Found where
  contents := found.contents ++ (content? d work.path e).toList
  real := found.real ++ (realChild? work e).toList
  linked := found.linked ++ (linkedChild? d work e).toList

theorem takeEntry_of_ignored {work : Work} {found : Found} {e : Disk.Name × Disk.Node}
    (h : ignored.contains e.1.text = true) : takeEntry d ignored work found e = .ok found := by
  simp only [takeEntry, h, if_true]

theorem grow_of_none {work : Work} {found : Found} {n : Disk.Name} {node : Disk.Node}
    (h : d.directoryAt? (n :: work.path) node = none) :
    grow d work found (n, node) = { found with contents := found.contents ++ [n.text] } := by
  cases node with
  | file readable content => simp [grow, content?, realChild?, linkedChild?, h]
  | directory a => cases h
  | link route => simp [grow, content?, realChild?, linkedChild?, h]

theorem grow_directory {work : Work} {found : Found} {n : Disk.Name} {a : Disk.Access} :
    grow d work found (n, .directory a) =
      { found with real := found.real ++ [⟨n :: work.path, childName work.name n.text⟩] } := by
  simp [grow, content?, realChild?, linkedChild?, Disk.directoryAt?]

theorem grow_link {work : Work} {found : Found} {n : Disk.Name} {route : Disk.Route}
    {q : Disk.Path} (h : d.directoryAt? (n :: work.path) (.link route) = some q) :
    grow d work found (n, .link route) =
      { found with linked := found.linked ++ [⟨q, childName work.name n.text⟩] } := by
  simp [grow, content?, realChild?, linkedChild?, h]

/-- An entry that stands for a directory is taken only once that directory was reached. -/
theorem takeEntry_eq_grow {work : Work} {found found' : Found} {e : Disk.Name × Disk.Node}
    (hw : d.Stands work.path) (he : e ∈ d.entries work.path)
    (hk : ignored.contains e.1.text = false) (h : takeEntry d ignored work found e = .ok found') :
    found' = grow d work found e ∧
      ∀ q, d.directoryAt? (e.1 :: work.path) e.2 = some q →
        d.canonical (.ofPath (e.1 :: work.path)) = .ok q := by
  obtain ⟨n, node⟩ := e
  simp only [takeEntry, hk, Bool.false_eq_true, if_false] at h
  cases hd : d.directoryAt? (n :: work.path) node with
  | none =>
    have hno : ¬isDirectoryEntry d (n :: work.path) node = true := by
      rw [isDirectoryEntry_iff, hd]
      exact Bool.false_ne_true
    rw [if_neg hno] at h
    cases h
    refine ⟨(grow_of_none hd).symm, ?_⟩
    intro q hq
    cases hq
  | some q =>
    have hyes : isDirectoryEntry d (n :: work.path) node = true := by
      rw [isDirectoryEntry_iff, hd]
      rfl
    rw [if_pos hyes] at h
    cases hc : d.canonical (.ofPath (n :: work.path)) with
    | error why =>
      rw [hc] at h
      cases h
    | ok target =>
      -- where the entry leads is what it stands for, whether it is a directory or a link to one
      have ht : target = q := by
        cases node with
        | file readable content => cases hd
        | directory a =>
          have hs : d.Stands (n :: work.path) :=
            ⟨Disk.isDirectory_of_node? (Disk.mem_entries.mp he), hw⟩
          cases hd
          exact Disk.canonical_ofPath_eq hs hc
        | link route => exact Disk.canonical_link_eq hd hc
      subst ht
      refine ⟨?_, fun q' hq' => congrArg Except.ok (Option.some.inj hq')⟩
      rw [hc] at h
      cases node with
      | file readable content => cases hd
      | directory a =>
        cases hd
        cases h
        exact grow_directory.symm
      | link route =>
        cases h
        exact (grow_link hd).symm

theorem filterMap_cons_toList {α β : Type} (f : α → Option β) (a : α) (l : List α) :
    (a :: l).filterMap f = (f a).toList ++ l.filterMap f := by
  cases h : f a <;> simp [h]

/-- Taking the entries in turn finds what each of those not left out adds. -/
theorem foldlM_takeEntry {work : Work} (hw : d.Stands work.path)
    {entries : List (Disk.Name × Disk.Node)} (he : ∀ e ∈ entries, e ∈ d.entries work.path)
    {found found' : Found} (h : entries.foldlM (takeEntry d ignored work) found = .ok found') :
    let taken := entries.filter fun e => !ignored.contains e.1.text
    found' =
        ⟨found.contents ++ taken.filterMap (content? d work.path),
          found.real ++ taken.filterMap (realChild? work),
          found.linked ++ taken.filterMap (linkedChild? d work)⟩ ∧
      ∀ e ∈ taken, ∀ q, d.directoryAt? (e.1 :: work.path) e.2 = some q →
        d.canonical (.ofPath (e.1 :: work.path)) = .ok q := by
  induction entries generalizing found with
  | nil =>
    cases h
    simp
  | cons e entries ih =>
    have he' : ∀ e ∈ entries, e ∈ d.entries work.path := fun e hm =>
      he e (List.mem_cons_of_mem _ hm)
    rw [List.foldlM_cons] at h
    cases hk : ignored.contains e.1.text with
    | true =>
      rw [takeEntry_of_ignored hk] at h
      have hrest := ih he' h
      simpa [hk] using hrest
    | false =>
      cases ht : takeEntry d ignored work found e with
      | error failure =>
        rw [ht] at h
        cases h
      | ok next =>
        rw [ht] at h
        obtain ⟨rfl, hcanonical⟩ := takeEntry_eq_grow hw (he e List.mem_cons_self) hk ht
        obtain ⟨hfound, hrest⟩ := ih he' h
        simp only [hk, Bool.not_false, List.filter_cons_of_pos]
        constructor
        · rw [hfound]
          simp only [grow, List.append_assoc, filterMap_cons_toList]
        · intro e' hm
          rcases List.mem_cons.mp hm with rfl | hm
          · exact hcanonical
          · exact hrest e' hm

/-- A listing that does not fail finds what the directory holds, and reaches every directory that
it finds. -/
theorem list_spec {work : Work} {found : Found} (hw : d.Stands work.path.tail)
    (h : list d ignored work = .ok found) :
    found = holds d ignored work ∧
      ∀ e ∈ kept d ignored work.path, ∀ q, d.directoryAt? (e.1 :: work.path) e.2 = some q →
        d.canonical (.ofPath (e.1 :: work.path)) = .ok q := by
  have hs : d.Stands work.path := .of_tail (isDirectory_of_list h) hw
  unfold list at h
  split at h
  · cases h
  split at h
  · exact foldlM_takeEntry hs (fun _ hm => hm) h
  · cases h

/-! ## What is held -/

theorem mem_contents_holds {work : Work} {name : String} :
    name ∈ (holds d ignored work).contents ↔
      ∃ e ∈ kept d ignored work.path, e.1.text = name ∧
        d.directoryAt? (e.1 :: work.path) e.2 = none := by
  simp only [holds, List.mem_filterMap]
  refine exists_congr fun e => and_congr_right fun _ => ?_
  simp only [content?]
  cases d.directoryAt? (e.1 :: work.path) e.2 <;> simp

theorem mem_real_holds {work child : Work} :
    child ∈ (holds d ignored work).real ↔
      ∃ n a, (n, Disk.Node.directory a) ∈ kept d ignored work.path ∧
        child = ⟨n :: work.path, childName work.name n.text⟩ := by
  simp only [holds, List.mem_filterMap]
  constructor
  · intro h
    obtain ⟨⟨n, node⟩, hm, hc⟩ := h
    cases node with
    | directory a =>
      cases hc
      exact ⟨n, a, hm, rfl⟩
    | file readable content => cases hc
    | link target => cases hc
  · intro h
    obtain ⟨n, a, hm, rfl⟩ := h
    exact ⟨_, hm, rfl⟩

theorem mem_linked_holds {work child : Work} :
    child ∈ (holds d ignored work).linked ↔
      ∃ n target, (n, Disk.Node.link target) ∈ kept d ignored work.path ∧
        d.directoryAt? (n :: work.path) (.link target) = some child.path ∧
        child.name = childName work.name n.text := by
  simp only [holds, List.mem_filterMap]
  constructor
  · intro h
    obtain ⟨⟨n, node⟩, hm, hc⟩ := h
    cases node with
    | directory a => cases hc
    | file readable content => cases hc
    | link target =>
      obtain ⟨q, hq, rfl⟩ := Option.map_eq_some_iff.mp hc
      exact ⟨n, target, hm, hq, rfl⟩
  · intro h
    obtain ⟨n, target, hm, hq, hn⟩ := h
    obtain ⟨path, name⟩ := child
    cases hn
    exact ⟨_, hm, Option.map_eq_some_iff.mpr ⟨path, hq, rfl⟩⟩

/-- The directories to go to, found as such or by links. -/
def Found.children (found : Found) : List Work := found.real ++ found.linked

theorem mem_children_holds {work child : Work} :
    child ∈ (holds d ignored work).children ↔
      ∃ e ∈ kept d ignored work.path,
        d.directoryAt? (e.1 :: work.path) e.2 = some child.path ∧
        child.name = childName work.name e.1.text := by
  rw [Found.children, List.mem_append, mem_real_holds, mem_linked_holds]
  constructor
  · intro h
    rcases h with ⟨n, a, hm, rfl⟩ | ⟨n, target, hm, hq, hn⟩
    · exact ⟨_, hm, rfl, rfl⟩
    · exact ⟨_, hm, hq, hn⟩
  · intro h
    obtain ⟨⟨n, node⟩, hm, hq, hn⟩ := h
    cases node with
    | file readable content => cases hq
    | directory a =>
      obtain ⟨path, name⟩ := child
      cases hq
      cases hn
      exact .inl ⟨n, a, hm, rfl⟩
    | link target => exact .inr ⟨n, target, hm, hq, hn⟩

end Scan

end LicenseAudit
