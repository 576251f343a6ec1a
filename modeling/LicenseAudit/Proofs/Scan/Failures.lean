import LicenseAudit.Proofs.Disk.Asking
import LicenseAudit.Proofs.Scan.Order

/-!
# Where a scan fails

A directory is `Stuck` when it cannot be read, or when an entry of it that is not left out is a
directory to go to and cannot be gone to. A directory that was found by asking for its path is
listed unless it is stuck, and the first thing that is wrong with it is the failure (`list_cases`).
So a scan fails exactly if it reaches a stuck directory through directories that are not, and it
fails at the first of them in its order; what is left out leads nowhere.

An entry cannot be gone to if its directory may not be searched, or if a path is too long to be
asked for. Where no path on the disk is too long only permissions are left
(`stuck_iff_of_not_overlong`).
-/

set_option autoImplicit false

namespace LicenseAudit

namespace Disk

/-- Whether there is a directory at a path whose entries the user may list. -/
def readable (d : Disk) (p : Path) : Bool :=
  match d.access? p with
  | some a => a.read
  | none => false

variable {d : Disk}

theorem isDirectory_of_directoryAt? {p q : Path} {e : Name × Node} (he : e ∈ d.entries p)
    (h : d.directoryAt? (e.1 :: p) e.2 = some q) : d.isDirectory q = true := by
  obtain ⟨n, node⟩ := e
  cases node with
  | file readable content => cases h
  | directory a =>
    cases h
    exact isDirectory_of_node? (mem_entries.mp he)
  | link target => exact (directoryAt?_link h).2

end Disk

namespace Scan

/-- The entry is a directory that cannot be gone to, or a link that is seen to lead to one and whose
path cannot be found out. -/
def Barred (d : Disk) (p : Disk.Path) (e : Disk.Name × Disk.Node) : Prop :=
  match e.2 with
  | .directory _ => d.searchable p = false ∨ Disk.Path.fits (e.1 :: p) = false
  | .link _ =>
    d.leadsToDirectory (e.1 :: p) = true ∧ d.canonical (.ofPath (e.1 :: p)) = .error .tooLong
  | .file _ _ => False

/-- Why an entry is barred. -/
def barrier (p : Disk.Path) (e : Disk.Name × Disk.Node) : Disk.Refusal :=
  match e.2 with
  | .directory _ => if Disk.Path.fits (e.1 :: p) then .denied else .tooLong
  | _ => .tooLong

/-- The directory cannot be read, or an entry that is not left out is barred. -/
def Stuck (d : Disk) (ignored : NameSet) (p : Disk.Path) : Prop :=
  d.readable p = false ∨ ∃ e ∈ kept d ignored p, Barred d p e

/-- What goes wrong first in a directory. -/
inductive Fails (d : Disk) (ignored : NameSet) (p : Disk.Path) : Failure → Prop
  | unreadable (unread : d.readable p = false) : Fails d ignored p (.listing p .denied)
  | barred {before after : List (Disk.Name × Disk.Node)} {e : Disk.Name × Disk.Node}
      (read : d.readable p = true) (split : kept d ignored p = before ++ e :: after)
      (clear : ∀ b ∈ before, ¬Barred d p b) (bar : Barred d p e) :
      Fails d ignored p (.resolving (e.1 :: p) (barrier p e))

/-- A directory is reached from another through directories that are not stuck. -/
abbrev Proceeds (d : Disk) (ignored : NameSet) : Disk.Path → Disk.Path → Prop :=
  Relation.ReflTransGen fun p q => ¬Stuck d ignored p ∧ Leads d ignored p q

variable {d : Disk} {ignored : NameSet} {root : Disk.Path}

theorem Fails.stuck {p : Disk.Path} {failure : Failure} (h : Fails d ignored p failure) :
    Stuck d ignored p := by
  cases h with
  | unreadable unread => exact .inl unread
  | @barred before after e read split clear bar =>
    refine .inr ⟨e, ?_, bar⟩
    rw [split]
    simp

theorem Proceeds.reaches {p q : Disk.Path} (h : Proceeds d ignored p q) : Reaches d ignored p q :=
  Relation.ReflTransGen.mono (fun _ _ hstep => hstep.2) _ _ h

/-- Where no path is too long, only permissions are in the way. -/
theorem stuck_iff_of_not_overlong (hd : ¬d.Overlong) {p : Disk.Path} :
    Stuck d ignored p ↔ d.readable p = false ∨
      d.searchable p = false ∧ ∃ n a, (n, Disk.Node.directory a) ∈ kept d ignored p := by
  refine or_congr_right ⟨?_, ?_⟩
  · rintro ⟨⟨n, node⟩, he, hbar⟩
    cases node with
    | file readable content => cases hbar
    | directory a =>
      rcases hbar with hsearch | hlong
      · exact ⟨hsearch, n, a, he⟩
      · exact absurd ⟨_, _, Disk.mem_entries.mp (mem_kept.mp he).1, hlong⟩ hd
    | link target =>
      obtain ⟨hleads, hlong⟩ := hbar
      obtain ⟨q, hq⟩ := (@Disk.leadsToDirectory_iff d _ target).mp hleads
      rcases Disk.canonical_of_resolve (Disk.directoryAt?_link hq).1 with hok | ⟨-, hover⟩
      · rw [hok] at hlong
        cases hlong
      · exact absurd hover hd
  · rintro ⟨hsearch, n, a, he⟩
    exact ⟨_, he, .inl hsearch⟩

/-! ## Listing one directory -/

section Listing

variable {work : Work} {found : Found} {e : Disk.Name × Disk.Node}

theorem canonical_of_barred (hp : d.Askable work.path) (hd : d.isDirectory work.path = true)
    (he : e ∈ d.entries work.path) (hbar : Barred d work.path e) :
    d.canonical (.ofPath (e.1 :: work.path)) = .error (barrier work.path e) := by
  obtain ⟨n, node⟩ := e
  cases node with
  | file readable content => cases hbar
  | directory a =>
    rw [Disk.canonical_directory hp hd (Disk.mem_entries.mp he), barrier]
    by_cases hfits : Disk.Path.fits (n :: work.path) = true
    · rcases hbar with hsearch | hlong
      · simp [hfits, hsearch]
      · rw [hfits] at hlong
        cases hlong
    · simp [hfits]
  | link target => exact hbar.2

theorem canonical_of_clear (hp : d.Askable work.path) (hd : d.isDirectory work.path = true)
    (he : e ∈ d.entries work.path) (hclear : ¬Barred d work.path e)
    (hto : isDirectoryEntry d (e.1 :: work.path) e.2 = true) :
    ∃ q, d.canonical (.ofPath (e.1 :: work.path)) = .ok q := by
  obtain ⟨n, node⟩ := e
  cases node with
  | file readable content => cases hto
  | directory a =>
    rw [Barred, not_or, Bool.not_eq_false, Bool.not_eq_false] at hclear
    refine ⟨n :: work.path, ?_⟩
    rw [Disk.canonical_directory hp hd (Disk.mem_entries.mp he)]
    simp [hclear.1, hclear.2]
  | link target =>
    obtain ⟨q, hq⟩ := (@Disk.leadsToDirectory_iff d _ target).mp hto
    rcases Disk.canonical_of_resolve (Disk.directoryAt?_link hq).1 with hok | ⟨hlong, -⟩
    · exact ⟨q, hok⟩
    · exact absurd ⟨hto, hlong⟩ hclear

theorem isDirectoryEntry_of_barred {p : Disk.Path} (hbar : Barred d p e) :
    isDirectoryEntry d (e.1 :: p) e.2 = true := by
  obtain ⟨n, node⟩ := e
  cases node with
  | file readable content => cases hbar
  | directory a => rfl
  | link target => exact hbar.1

theorem takeEntry_of_barred (hp : d.Askable work.path) (hd : d.isDirectory work.path = true)
    (he : e ∈ d.entries work.path) (hk : ignored.contains e.1.text = false)
    (hbar : Barred d work.path e) :
    takeEntry d ignored work found e =
      .error (.resolving (e.1 :: work.path) (barrier work.path e)) := by
  simp only [takeEntry, hk, Bool.false_eq_true, if_false, isDirectoryEntry_of_barred hbar, if_true,
    canonical_of_barred hp hd he hbar]

theorem takeEntry_of_clear (hp : d.Askable work.path) (hd : d.isDirectory work.path = true)
    (he : e ∈ d.entries work.path) (hclear : ¬Barred d work.path e) :
    ∃ found', takeEntry d ignored work found e = .ok found' := by
  simp only [takeEntry]
  split
  · exact ⟨_, rfl⟩
  split
  · rename_i hto
    obtain ⟨q, hq⟩ := canonical_of_clear hp hd he hclear hto
    simp only [hq]
    split <;> exact ⟨_, rfl⟩
  · exact ⟨_, rfl⟩

/-- Taking the entries in turn goes on to the first that is barred. -/
theorem foldlM_takeEntry_cases (hp : d.Askable work.path) (hd : d.isDirectory work.path = true)
    {entries : List (Disk.Name × Disk.Node)} (he : ∀ e ∈ entries, e ∈ d.entries work.path) :
    let taken := entries.filter fun e => !ignored.contains e.1.text
    ((∃ found', entries.foldlM (takeEntry d ignored work) found = .ok found') ∧
      ∀ e ∈ taken, ¬Barred d work.path e) ∨
    ∃ before e after, taken = before ++ e :: after ∧ (∀ b ∈ before, ¬Barred d work.path b) ∧
      Barred d work.path e ∧ entries.foldlM (takeEntry d ignored work) found =
        .error (.resolving (e.1 :: work.path) (barrier work.path e)) := by
  induction entries generalizing found with
  | nil => exact .inl ⟨⟨found, rfl⟩, fun e hm => by cases hm⟩
  | cons e entries ih =>
    have hmem := he e List.mem_cons_self
    have hrest := fun found => @ih found fun e hm => he e (List.mem_cons_of_mem _ hm)
    simp only [List.foldlM_cons, List.filter_cons]
    cases hk : ignored.contains e.1.text with
    | true =>
      simp only [takeEntry_of_ignored hk, Bool.not_true, Bool.false_eq_true, if_false]
      exact hrest found
    | false =>
      by_cases hbar : Barred d work.path e
      · refine .inr ⟨[], e, _, rfl, fun b hb => (by cases hb), hbar, ?_⟩
        rw [takeEntry_of_barred hp hd hmem hk hbar]
        rfl
      · obtain ⟨next, hnext⟩ := @takeEntry_of_clear d ignored work found e hp hd hmem hbar
        rw [hnext]
        rcases hrest next with ⟨hok, hclear⟩ | ⟨before, b, after, hsplit, hclear, hb, herror⟩
        · refine .inl ⟨hok, fun e' hm => ?_⟩
          rcases List.mem_cons.mp hm with rfl | hm
          · exact hbar
          · exact hclear e' hm
        · refine .inr ⟨e :: before, b, after, ?_, fun e' hm => ?_, hb, herror⟩
          · simp [hsplit]
          · rcases List.mem_cons.mp hm with rfl | hm
            · exact hbar
            · exact hclear e' hm

/-- A directory is listed unless it is stuck, and otherwise fails with what goes wrong first. -/
theorem list_cases (hp : d.Askable work.path) (hd : d.isDirectory work.path = true) :
    ((∃ found, list d ignored work = .ok found) ∧ ¬Stuck d ignored work.path) ∨
      ∃ failure, list d ignored work = .error failure ∧ Fails d ignored work.path failure := by
  obtain ⟨a, ha⟩ := Option.isSome_iff_exists.mp hd
  cases hread : a.read with
  | false =>
    refine .inr ⟨.listing work.path .denied, ?_, .unreadable ?_⟩
    · simp [list, ha, hread]
    · simp [Disk.readable, ha, hread]
  | true =>
    have hreadable : d.readable work.path = true := by simp [Disk.readable, ha, hread]
    have hlist : list d ignored work =
        (d.entries work.path).foldlM (takeEntry d ignored work) ⟨[], [], []⟩ := by
      simp [list, ha, hread]
    rw [hlist]
    rcases @foldlM_takeEntry_cases d ignored work ⟨[], [], []⟩ hp hd _ fun _ hm => hm with
      ⟨hok, hclear⟩ | ⟨before, e, after, hsplit, hclear, hbar, herror⟩
    · refine .inl ⟨hok, ?_⟩
      rintro (hunread | ⟨e, hm, hbar⟩)
      · rw [hreadable] at hunread
        cases hunread
      · exact hclear e hm hbar
    · exact .inr ⟨_, herror, .barred hreadable hsplit hclear hbar⟩

theorem not_stuck_of_list (hp : d.Askable work.path) (h : list d ignored work = .ok found) :
    ¬Stuck d ignored work.path := by
  rcases list_cases hp (isDirectory_of_list h) with ⟨-, hclear⟩ | ⟨failure, herror, -⟩
  · exact hclear
  · rw [h] at herror
    cases herror

end Listing

/-! ## What a scan comes to -/

/-- What waits was found by asking, and was come to through directories that are not stuck. -/
structure Approaches (d : Disk) (ignored : NameSet) (root : Disk.Path) (p : Progress) : Prop where
  askable : ∀ w ∈ p.waiting, d.Askable w.path
  directory : ∀ w ∈ p.waiting, d.isDirectory w.path = true
  reached : ∀ w ∈ p.waiting, Proceeds d ignored root w.path
  clear : ∀ v ∈ p.made, ¬Stuck d ignored v.work.path

theorem approaches_first (hp : d.Askable root) (hd : d.isDirectory root = true) :
    Approaches d ignored root (.first root) where
  askable w hw := by rwa [List.mem_singleton.mp hw]
  directory w hw := by rwa [List.mem_singleton.mp hw]
  reached w hw := by rw [List.mem_singleton.mp hw]
  clear v hv := by cases hv

/-- What is found in a directory that was come to was found by asking, too. -/
theorem approaches_children {w child : Work} {found : Found} (hp : d.Askable w.path)
    (h : list d ignored w = .ok found) (hc : child ∈ found.children) :
    d.Askable child.path ∧ d.isDirectory child.path = true ∧
      Leads d ignored w.path child.path := by
  obtain ⟨rfl, hcanonical⟩ := list_spec hp.stands_tail h
  obtain ⟨e, he, hq, -⟩ := mem_children_holds.mp hc
  exact ⟨Disk.askable_of_canonical (hcanonical e he _ hq),
    Disk.isDirectory_of_directoryAt? (mem_kept.mp he).1 hq, e, he, hq⟩

theorem Approaches.turn {p q : Progress} (h : Turn d ignored p q)
    (hp : Approaches d ignored root p) : Approaches d ignored root q where
  askable v hv := by
    rcases h.waiting_cases hv with hv | ⟨w, found, hw, listed, hv⟩
    · exact hp.askable v hv
    · exact (approaches_children (hp.askable w hw) listed hv).1
  directory v hv := by
    rcases h.waiting_cases hv with hv | ⟨w, found, hw, listed, hv⟩
    · exact hp.directory v hv
    · exact (approaches_children (hp.askable w hw) listed hv).2.1
  reached v hv := by
    rcases h.waiting_cases hv with hv | ⟨w, found, hw, listed, hv⟩
    · exact hp.reached v hv
    · have hleads := (approaches_children (hp.askable w hw) listed hv).2.2
      exact (hp.reached w hw).tail ⟨not_stuck_of_list (hp.askable w hw) listed, hleads⟩
  clear v hv := by
    rcases h.made_cases hv with hv | ⟨hw, listed⟩
    · exact hp.clear v hv
    · exact not_stuck_of_list (hp.askable v.work hw) listed

/-! ## Whole scans -/

/-- The root of a planned scan is a directory, and it is found unless a path is too long. -/
theorem start_cases {place : String} {s : Scan} (h : plan d place = .ok s) (names : List String) :
    (∃ path, (s.ignoring names).start d = .ok path ∧ d.Askable path ∧ d.isDirectory path = true) ∨
      (s.ignoring names).start d = .error (.unlistable place Disk.Refusal.tooLong.message) ∧
        d.Overlong := by
  unfold plan at h
  cases hr : Disk.routeOf place with
  | error why =>
    rw [hr] at h
    cases h
  | ok r =>
    rw [hr] at h
    cases hs : d.stat r with
    | error why =>
      simp only [bind, Except.bind, hs] at h
      cases h
    | ok shown =>
      obtain ⟨q, node⟩ := shown
      cases node with
      | file readable content | link target =>
        simp only [bind, Except.bind, hs] at h
        cases h
      | directory a =>
        simp only [bind, Except.bind, hs] at h
        cases h
        obtain ⟨hresolve, hn⟩ := Disk.stat_eq_ok hs
        simp only [start, ignoring, hr, bind, Except.bind]
        rcases Disk.canonical_of_resolve hresolve with hc | ⟨hc, hlong⟩
        · simp only [hc]
          exact .inl ⟨q, rfl, Disk.askable_of_canonical hc, Disk.isDirectory_of_node? hn⟩
        · simp only [hc]
          exact .inr ⟨trivial, hlong⟩

theorem run_eq_error_iff {s : Scan} {fault : Fault} :
    s.run d = .error fault ↔ s.visits d = .error fault := by
  unfold run
  cases s.visits d <;> simp [bind, Except.bind, pure, Except.pure]

/-- A scan that has found its root goes through, and then comes to no directory that is stuck, or it
fails at the one that is up next. -/
theorem run_cases {s : Scan} (hs : s.start d = .ok root) (hp : d.Askable root)
    (hd : d.isDirectory root = true) :
    ((∃ ls, s.run d = .ok ls) ∧ ∀ p, Proceeds d s.ignored root p → ¬Stuck d s.ignored p) ∨
      ∃ ws w failure, s.run d = .error failure.fault ∧ InOrder d s.ignored root ws ∧
        (∀ v ∈ ws, ¬Stuck d s.ignored v.path) ∧ upNext? d s.ignored root ws = some w ∧
        Proceeds d s.ignored root w.path ∧ Fails d s.ignored w.path failure := by
  obtain ⟨last, answer, hturns, hends, hanswer⟩ := exists_turns_of_start hs
  have hcovers := (covers_first hp.stands_tail).turns hturns
  have hqueued := queued_of_turns hp.stands_tail hturns
  have happroaches := hturns.keeps Approaches.turn (approaches_first hp hd)
  cases hends with
  | finished none =>
    refine .inl ⟨⟨_, run_eq_ok_iff.mpr ⟨_, hanswer, rfl⟩⟩, fun p hproceeds => ?_⟩
    have hdone : p ∈ last.done :=
      (hcovers.mem_done_iff (waiting_eq_nil none)).mpr hproceeds.reaches
    obtain ⟨v, hv, rfl⟩ := List.mem_map.mp hdone
    exact happroaches.clear v hv
  | @failed w rest failure next new refused =>
    have hw : w ∈ last.waiting := (mem_waiting next).mpr (.inl rfl)
    refine .inr ⟨last.listed, w, failure, run_eq_error_iff.mpr hanswer, hqueued.order,
      fun v hv => ?_, hqueued.upNext?_eq next new, happroaches.reached w hw, ?_⟩
    · obtain ⟨visit, hvisit, rfl⟩ := List.mem_map.mp hv
      exact happroaches.clear visit (List.mem_reverse.mp hvisit)
    · rcases list_cases (happroaches.askable w hw) (happroaches.directory w hw) with
        ⟨⟨found, hfound⟩, -⟩ | ⟨failure', herror, hfails⟩
      · rw [refused] at hfound
        cases hfound
      · rw [refused] at herror
        cases herror
        exact hfails

/-- A scan fails exactly if its root cannot be found out, or if it comes to a stuck directory
through directories that are not stuck. It fails at the first such directory in its order, of what
goes wrong there first. Where no path on the disk is too long the root is always found out, and a
directory is stuck exactly if it cannot be read, or cannot be searched and has a subdirectory that
is not left out. -/
theorem run_fails {place : String} {planned : Scan} (h : plan d place = .ok planned)
    (names : List String) :
    let s := planned.ignoring names
    (s.start d = .error (.unlistable place Disk.Refusal.tooLong.message) ∧
      s.run d = .error (.unlistable place Disk.Refusal.tooLong.message) ∧ d.Overlong) ∨
    ∃ root, s.start d = .ok root ∧
      ((∃ fault, s.run d = .error fault) ↔
        ∃ p, Proceeds d s.ignored root p ∧ Stuck d s.ignored p) ∧
      (∀ fault, s.run d = .error fault → ∃ ws w failure, InOrder d s.ignored root ws ∧
        (∀ v ∈ ws, ¬Stuck d s.ignored v.path) ∧ upNext? d s.ignored root ws = some w ∧
        Proceeds d s.ignored root w.path ∧ Fails d s.ignored w.path failure ∧
        fault = failure.fault) ∧
      (∀ p, (d.entries p).Pairwise fun e e' => compare e.1.bytes e'.1.bytes = .lt) ∧
      (¬d.Overlong → ∀ p, Stuck d s.ignored p ↔ d.readable p = false ∨
        d.searchable p = false ∧ ∃ n a, (n, Disk.Node.directory a) ∈ kept d s.ignored p) := by
  intro s
  rcases start_cases h names with ⟨root, hs, hp, hd⟩ | ⟨hs, hlong⟩
  · refine .inr ⟨root, hs, ?_, ?_, d.entries_ascending, fun hshort p =>
      stuck_iff_of_not_overlong hshort⟩
    · rcases run_cases hs hp hd with
        ⟨⟨ls, hrun⟩, hclear⟩ | ⟨ws, w, failure, hrun, -, -, -, hw, hfails⟩
      · refine ⟨fun ⟨fault, herror⟩ => ?_, fun ⟨p, hproceeds, hstuck⟩ => ?_⟩
        · rw [hrun] at herror
          cases herror
        · exact absurd hstuck (hclear p hproceeds)
      · exact ⟨fun _ => ⟨w.path, hw, hfails.stuck⟩, fun _ => ⟨_, hrun⟩⟩
    · intro fault herror
      rcases run_cases hs hp hd with
        ⟨⟨ls, hrun⟩, -⟩ | ⟨ws, w, failure, hrun, horder, hclear, hup, hw, hfails⟩
      · rw [hrun] at herror
        cases herror
      · rw [hrun] at herror
        cases herror
        exact ⟨ws, w, failure, horder, hclear, hup, hw, hfails, rfl⟩
  · exact .inl ⟨hs, run_eq_error_iff.mpr (visits_of_start_error hs), hlong⟩

/-! ## Scans from the root of the disk -/

theorem routeOf_root : Disk.routeOf "/" = .ok ⟨true, [.directory]⟩ := by
  cbv

theorem plan_root (d : Disk) : plan d "/" = .ok ⟨"/", ∅⟩ := by
  rw [plan, routeOf_root]
  rfl

theorem start_root (d : Disk) (ignored : NameSet) : (⟨"/", ignored⟩ : Scan).start d = .ok [] := by
  rw [start, routeOf_root]
  rfl

/-! ## A directory that may not be searched -/

def locker : Disk.Name := ⟨[107], by decide⟩

def locket : Disk.Name := ⟨[116], by decide⟩

/-- A disk with a directory that can be read but not searched, and a directory in it. -/
def locked : Disk :=
  (Disk.empty.put [locker] (.directory ⟨true, false⟩)).put [locket, locker] (.directory .full)

theorem not_overlong_locked : ¬locked.Overlong := by
  rintro ⟨p, node, hnode, hlong⟩
  cases p with
  | nil => cases hlong
  | cons n p =>
    rw [locked, Disk.node?_put (List.cons_ne_nil n p)] at hnode
    split at hnode
    · rename_i hp
      rw [hp] at hlong
      cases hlong
    rw [Disk.node?_put (List.cons_ne_nil n p)] at hnode
    split at hnode
    · rename_i hp
      rw [hp] at hlong
      cases hlong
    · cases hnode

/-- The scan fails at the directory that may not be searched. -/
theorem run_fails_locked :
    ∃ s, plan locked "/" = .ok s ∧ (∃ fault, (s.ignoring ["b"]).run locked = .error fault) ∧
      Stuck locked (s.ignoring ["b"]).ignored [locker] := by
  have hmem : ∀ {n p node}, locked.node? (n :: p) = some node → n.text ≠ "b" →
      (n, node) ∈ kept locked ((⟨"/", ∅⟩ : Scan).ignoring ["b"]).ignored p := by
    intro n p node hnode hname
    refine mem_kept.mpr ⟨Disk.mem_entries.mpr hnode, fun hignored => ?_⟩
    rcases NameSet.mem_insertAll.mp hignored with hempty | hb
    · exact SortedBy.not_mem_empty hempty
    · exact hname (List.mem_singleton.mp hb)
  have hlocker : locked.node? [locker] = some (.directory ⟨true, false⟩) := by cbv
  have hlocket : locked.node? [locket, locker] = some (.directory .full) := by cbv
  refine ⟨_, plan_root locked, ?_⟩
  rcases run_fails (plan_root locked) ["b"] with ⟨-, -, hlong⟩ | ⟨root, hs, hfails, -, -, hstuck⟩
  · exact absurd hlong not_overlong_locked
  · obtain rfl : [] = root := Except.ok.inj ((start_root locked _).symm.trans hs)
    have hlocked : Stuck locked ((⟨"/", ∅⟩ : Scan).ignoring ["b"]).ignored [locker] :=
      (hstuck not_overlong_locked _).mpr (.inr ⟨by cbv, locket, _, hmem hlocket (by decide)⟩)
    have hroot : ¬Stuck locked ((⟨"/", ∅⟩ : Scan).ignoring ["b"]).ignored [] := by
      rw [hstuck not_overlong_locked]
      rintro (hread | ⟨hsearch, -⟩)
      · cases hread
      · cases hsearch
    exact ⟨hfails.mpr ⟨[locker], .single ⟨hroot, _, hmem hlocker (by decide), rfl⟩, hlocked⟩,
      hlocked⟩

/-! ## Paths that are too long -/

/-- A name of as many bytes as a name can have. -/
def wide : Disk.Name := ⟨List.replicate 255 119, by decide +kernel⟩

/-- Directories in one another, each with such a name. -/
def nested : Nat → Disk
  | 0 => .empty
  | depth + 1 => (nested depth).put (List.replicate (depth + 1) wide) (.directory .full)

theorem node?_nested {depth i : Nat} (h : i < depth) :
    (nested depth).node? (List.replicate (i + 1) wide) = some (.directory .full) := by
  induction depth with
  | zero => cases h
  | succ depth ih =>
    rw [nested, Disk.node?_put (by simp)]
    by_cases hi : i = depth
    · rw [hi, if_pos rfl]
    · rw [if_neg (by simp [hi])]
      exact ih (by omega)

theorem full_of_node?_nested {depth : Nat} {p : Disk.Path} {node : Disk.Node}
    (h : (nested depth).node? p = some node) : node = .directory .full := by
  cases p with
  | nil => exact (Option.some.inj h).symm
  | cons n p =>
    induction depth with
    | zero => cases h
    | succ depth ih =>
      rw [nested, Disk.node?_put (List.cons_ne_nil n p)] at h
      split at h
      · exact (Option.some.inj h).symm
      · exact ih h

theorem size_replicate_wide (depth : Nat) :
    Disk.Path.size (List.replicate depth wide) = depth * 256 := by
  induction depth with
  | zero => rfl
  | succ depth ih =>
    have hwide : wide.bytes.length = 255 := List.length_replicate
    rw [List.replicate_succ, Disk.Path.size, ih, hwide]
    omega

/-- The scan fails though every directory on the disk can be read and searched. -/
theorem nested_refused :
    ∃ s fault, plan (nested 16) "/" = .ok s ∧ s.run (nested 16) = .error fault ∧
      ∀ p, (nested 16).isDirectory p = true →
        (nested 16).readable p = true ∧ (nested 16).searchable p = true := by
  have hkept : ∀ {i}, i < 16 →
      (wide, Disk.Node.directory .full) ∈ kept (nested 16) ∅ (List.replicate i wide) := fun hi =>
    mem_kept.mpr ⟨Disk.mem_entries.mpr (node?_nested hi), SortedBy.not_mem_empty⟩
  have hopen : ∀ p, (nested 16).isDirectory p = true →
      (nested 16).readable p = true ∧ (nested 16).searchable p = true := by
    intro p hp
    obtain ⟨a, hn⟩ := Disk.node?_of_isDirectory hp
    cases full_of_node?_nested hn
    constructor
    · simp [Disk.readable, Disk.access?, hn, Disk.Access.full]
    · simp [Disk.searchable, Disk.access?, hn, Disk.Access.full]
  rcases run_cases (start_root (nested 16) ∅) trivial rfl with
    ⟨-, hclear⟩ | ⟨ws, w, failure, hrun, -⟩
  · -- the scan would come down to the last directory whose path is short enough
    have hdown : ∀ i, i < 16 → Proceeds (nested 16) ∅ [] (List.replicate i wide) := by
      intro i
      induction i with
      | zero => exact fun _ => .refl
      | succ i ih =>
        intro hi
        have hproceeds := ih (by omega)
        exact hproceeds.tail ⟨hclear _ hproceeds, _, hkept (by omega), rfl⟩
    have hlong : Disk.Path.fits (wide :: List.replicate 15 wide) = false := by
      rw [← List.replicate_succ, Disk.Path.fits, size_replicate_wide]
      rfl
    have hstuck : Stuck (nested 16) ∅ (List.replicate 15 wide) :=
      .inr ⟨_, hkept (by omega), .inr hlong⟩
    exact absurd hstuck (hclear _ (hdown 15 (by omega)))
  · exact ⟨_, _, plan_root _, hrun, hopen⟩

end Scan

end LicenseAudit
