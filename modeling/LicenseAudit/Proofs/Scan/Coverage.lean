import Mathlib
import LicenseAudit.Proofs.Scan.Entries
import LicenseAudit.Proofs.Scan.Turns

/-!
# What a scan covers

A directory `Leads` to another when an entry of it that is not left out is that directory, or is a
link whose metadata shows it. A scan that succeeds lists exactly the directories that can be
reached from its root in this way, each once, and records of each the names of all other entries
that are not left out.

The invariant is `Covers`. Soundness is that everything that waits was reached; completeness is
that whatever a listed directory leads to is listed or waits, so that once nothing waits the listed
directories are closed under leading on. `Exhausts` is what that comes to for the visits of a whole
scan. That the loop ends at all is in the module on turns.
-/

set_option autoImplicit false

namespace LicenseAudit

namespace Scan

/-- A directory leads to the one that an entry of it stands for, unless the entry is left out. -/
def Leads (d : Disk) (ignored : NameSet) (p q : Disk.Path) : Prop :=
  ∃ e ∈ kept d ignored p, d.directoryAt? (e.1 :: p) e.2 = some q

/-- A directory is reached from another by leading on, any number of times. -/
abbrev Reaches (d : Disk) (ignored : NameSet) : Disk.Path → Disk.Path → Prop :=
  Relation.ReflTransGen (Leads d ignored)

/-- The listing has the names of the entries of a directory that stand for no directory and are not
left out. -/
def Records (d : Disk) (ignored : NameSet) (l : Listing) (p : Disk.Path) : Prop :=
  ∀ name, name ∈ l.contents ↔
    ∃ e ∈ kept d ignored p, e.1.text = name ∧ d.directoryAt? (e.1 :: p) e.2 = none

/-- A directory that was listed or waits to be. -/
def Progress.Knows (p : Progress) (q : Disk.Path) : Prop :=
  q ∈ p.done ∨ ∃ w ∈ p.waiting, w.path = q

/-- What is true of a scan on its way. -/
structure Covers (d : Disk) (ignored : NameSet) (root : Disk.Path) (p : Progress) : Prop where
  -- what waits lies in a directory that stands
  stands : ∀ w ∈ p.waiting, d.Stands w.path.tail
  reached : ∀ w ∈ p.waiting, Reaches d ignored root w.path
  listed : ∀ v ∈ p.made, Reaches d ignored root v.work.path
  found : ∀ v ∈ p.made, v.found = holds d ignored v.work
  once : p.done.Nodup
  rooted : p.Knows root
  -- nothing that a listed directory leads to is forgotten
  closed : ∀ q ∈ p.done, ∀ q', Leads d ignored q q' → p.Knows q'

variable {d : Disk} {ignored : NameSet} {root : Disk.Path}

theorem covers_first (hroot : d.Stands root.tail) : Covers d ignored root (.first root) where
  stands w hw := by
    rw [List.mem_singleton.mp hw]
    exact hroot
  reached w hw := by
    rw [List.mem_singleton.mp hw]
  listed v hv := by cases hv
  found v hv := by cases hv
  once := List.nodup_nil
  rooted := .inr ⟨_, List.mem_singleton.mpr rfl, rfl⟩
  closed q hq := by cases hq

theorem mem_waiting_add {rest : Queues} {found : Found} {made : List Visit} {w : Work} :
    w ∈ Progress.waiting ⟨rest.add found, made⟩ ↔
      w ∈ rest.real ++ rest.linked ∨ w ∈ found.children := by
  simp only [Progress.waiting, Queues.add, Found.children, List.mem_append]
  exact or_or_or_comm

/-- What waits after a turn waited before, or was found in a directory that did. -/
theorem Turn.waiting_cases {p q : Progress} (h : Turn d ignored p q) {v : Work}
    (hv : v ∈ q.waiting) :
    v ∈ p.waiting ∨ ∃ w found, w ∈ p.waiting ∧ list d ignored w = .ok found ∧
      v ∈ found.children := by
  cases h with
  | @pass w rest next old => exact .inl ((mem_waiting next).mpr (.inr hv))
  | @visit w rest found next new listed =>
    rcases mem_waiting_add.mp hv with hv | hv
    · exact .inl ((mem_waiting next).mpr (.inr hv))
    · exact .inr ⟨w, found, (mem_waiting next).mpr (.inl rfl), listed, hv⟩

/-- What was listed after a turn was listed before, or waited and is listed now. -/
theorem Turn.made_cases {p q : Progress} (h : Turn d ignored p q) {v : Visit} (hv : v ∈ q.made) :
    v ∈ p.made ∨ v.work ∈ p.waiting ∧ list d ignored v.work = .ok v.found := by
  cases h with
  | @pass w rest next old => exact .inl hv
  | @visit w rest found next new listed =>
    rcases List.mem_cons.mp hv with rfl | hv
    · exact .inr ⟨(mem_waiting next).mpr (.inl rfl), listed⟩
    · exact .inl hv

/-- A turn forgets nothing: what it takes from the waiting it has listed, or had listed before. -/
theorem Turn.knows {p q : Progress} (h : Turn d ignored p q) {path : Disk.Path}
    (hk : p.Knows path) : q.Knows path := by
  cases h with
  | @pass w rest next old =>
    rcases hk with hk | ⟨v, hv, rfl⟩
    · exact .inl hk
    · rcases (mem_waiting next).mp hv with rfl | hv
      · exact .inl old
      · exact .inr ⟨v, hv, rfl⟩
  | @visit w rest found next new listed =>
    rcases hk with hk | ⟨v, hv, rfl⟩
    · exact .inl (List.mem_cons_of_mem _ hk)
    · rcases (mem_waiting next).mp hv with rfl | hv
      · exact .inl List.mem_cons_self
      · exact .inr ⟨v, mem_waiting_add.mpr (.inl hv), rfl⟩

/-- Where the children of a listed directory are, and that it leads to them. -/
theorem leads_of_mem_children {w child : Work} {found : Found} (hw : d.Stands w.path.tail)
    (h : list d ignored w = .ok found) (hc : child ∈ found.children) :
    Leads d ignored w.path child.path ∧ d.Stands child.path.tail := by
  obtain ⟨rfl, hcanonical⟩ := list_spec hw h
  obtain ⟨e, he, hq, -⟩ := mem_children_holds.mp hc
  exact ⟨⟨e, he, hq⟩, Disk.stands_tail_of_canonical (hcanonical e he _ hq)⟩

theorem Covers.turn {p q : Progress} (h : Turn d ignored p q) (hp : Covers d ignored root p) :
    Covers d ignored root q := by
  have hknows : ∀ path, p.Knows path → q.Knows path := fun _ hk => h.knows hk
  cases h with
  | @pass w rest next old =>
    have hsub : ∀ v ∈ rest.real ++ rest.linked, v ∈ p.waiting := fun v hv =>
      (mem_waiting next).mpr (.inr hv)
    exact {
      stands := fun v hv => hp.stands v (hsub v hv)
      reached := fun v hv => hp.reached v (hsub v hv)
      listed := hp.listed
      found := hp.found
      once := hp.once
      rooted := hknows _ hp.rooted
      closed := fun path hd path' hl => hknows _ (hp.closed path hd path' hl) }
  | @visit w rest found next new listed =>
    have hsub : ∀ v ∈ rest.real ++ rest.linked, v ∈ p.waiting := fun v hv =>
      (mem_waiting next).mpr (.inr hv)
    have hw : w ∈ p.waiting := (mem_waiting next).mpr (.inl rfl)
    have hstands := hp.stands w hw
    have hreached := hp.reached w hw
    constructor
    case stands =>
      intro v hv
      rcases mem_waiting_add.mp hv with hv | hv
      · exact hp.stands v (hsub v hv)
      · exact (leads_of_mem_children hstands listed hv).2
    case reached =>
      intro v hv
      rcases mem_waiting_add.mp hv with hv | hv
      · exact hp.reached v (hsub v hv)
      · exact hreached.tail (leads_of_mem_children hstands listed hv).1
    case listed =>
      intro v hv
      rcases List.mem_cons.mp hv with rfl | hv
      · exact hreached
      · exact hp.listed v hv
    case found =>
      intro v hv
      rcases List.mem_cons.mp hv with rfl | hv
      · exact (list_spec hstands listed).1
      · exact hp.found v hv
    case once => exact List.nodup_cons.mpr ⟨new, hp.once⟩
    case rooted => exact hknows _ hp.rooted
    case closed =>
      intro path hd path' hl
      rcases List.mem_cons.mp hd with rfl | hd
      · -- the directory just listed: what it leads to is among the children, which now wait
        obtain ⟨e, he, hq⟩ := hl
        have hchild : (⟨path', childName w.name e.1.text⟩ : Work) ∈ found.children := by
          rw [(list_spec hstands listed).1]
          exact mem_children_holds.mpr ⟨e, he, hq, rfl⟩
        exact .inr ⟨_, mem_waiting_add.mpr (.inr hchild), rfl⟩
      · exact hknows _ (hp.closed path hd path' hl)

theorem Covers.turns {p q : Progress} (h : Turns d ignored p q) (hp : Covers d ignored root p) :
    Covers d ignored root q :=
  h.keeps Covers.turn hp

theorem Covers.mem_done_iff {p : Progress} (hp : Covers d ignored root p) (hn : p.waiting = [])
    {q : Disk.Path} : q ∈ p.done ↔ Reaches d ignored root q := by
  have hdone : ∀ path, p.Knows path → path ∈ p.done := by
    intro path h
    rcases h with hk | ⟨w, hw, -⟩
    · exact hk
    · rw [hn] at hw
      cases hw
  constructor
  · intro hq
    obtain ⟨v, hv, rfl⟩ := List.mem_map.mp hq
    exact hp.listed v hv
  · intro hr
    induction hr with
    | refl => exact hdone _ hp.rooted
    | tail _ hl ih => exact hdone _ (hp.closed _ ih _ hl)

theorem exists_canonical_of_start {s : Scan} (h : s.start d = .ok root) :
    ∃ route, d.canonical route = .ok root := by
  unfold start at h
  split at h
  · rename_i path hr
    cases h
    cases ht : Disk.routeOf s.root with
    | error why =>
      rw [ht] at hr
      cases hr
    | ok route =>
      rw [ht] at hr
      exact ⟨route, hr⟩
  · cases h

theorem stands_of_start {s : Scan} (h : s.start d = .ok root) : d.Stands root.tail := by
  obtain ⟨route, hr⟩ := exists_canonical_of_start h
  exact Disk.stands_tail_of_canonical hr

/-- Whatever was listed is a directory that stands. -/
theorem listed_of_turns {p : Progress} (hroot : d.Stands root.tail)
    (h : Turns d ignored (.first root) p) :
    ∀ v ∈ p.made, list d ignored v.work = .ok v.found ∧ d.Stands v.work.path := by
  have hstep : ∀ {p q : Progress}, Turn d ignored p q →
      Covers d ignored root p ∧
        (∀ v ∈ p.made, list d ignored v.work = .ok v.found ∧ d.Stands v.work.path) →
      Covers d ignored root q ∧
        ∀ v ∈ q.made, list d ignored v.work = .ok v.found ∧ d.Stands v.work.path := by
    intro p q hturn hp
    refine ⟨hp.1.turn hturn, ?_⟩
    cases hturn with
    | pass next old => exact hp.2
    | @visit w rest found next new listed =>
      intro v hv
      rcases List.mem_cons.mp hv with rfl | hv
      · have hw := hp.1.stands w ((mem_waiting next).mpr (.inl rfl))
        exact ⟨listed, .of_tail (isDirectory_of_list listed) hw⟩
      · exact hp.2 v hv
  exact (h.keeps hstep ⟨covers_first hroot, fun v hv => by cases hv⟩).2

/-- The visits are of the directories that are reached from the root, each listed once. -/
structure Exhausts (d : Disk) (ignored : NameSet) (root : Disk.Path) (visits : List Visit) :
    Prop where
  once : (visits.map (·.work.path)).Nodup
  reached : ∀ p, p ∈ visits.map (·.work.path) ↔ Reaches d ignored root p
  listed : ∀ v ∈ visits, list d ignored v.work = .ok v.found
  stands : ∀ v ∈ visits, d.Stands v.work.path

theorem Exhausts.found {visits : List Visit} (h : Exhausts d ignored root visits) {v : Visit}
    (hv : v ∈ visits) : v.found = holds d ignored v.work :=
  (list_spec (h.stands v hv).tail (h.listed v hv)).1

theorem exists_exhausts_of_visits {s : Scan} {visits : List Visit} (h : s.visits d = .ok visits) :
    ∃ root, s.start d = .ok root ∧ Exhausts d s.ignored root visits := by
  obtain ⟨root, last, hs, hturns, hn, rfl⟩ := exists_turns_of_visits h
  have hroot := stands_of_start hs
  have hcovers := (covers_first hroot).turns hturns
  have hlisted := listed_of_turns hroot hturns
  refine ⟨root, hs, ?_, fun p => ?_, fun v hv => ?_, fun v hv => ?_⟩
  · rw [List.map_reverse]
    exact List.nodup_reverse.mpr hcovers.once
  · rw [List.map_reverse, List.mem_reverse]
    exact hcovers.mem_done_iff hn
  · exact (hlisted v (List.mem_reverse.mp hv)).1
  · exact (hlisted v (List.mem_reverse.mp hv)).2

theorem records_listing {v : Visit} (h : v.found = holds d ignored v.work) :
    Records d ignored v.listing v.work.path := by
  intro name
  have hlist : name ∈ v.listing.contents ↔ name ∈ v.found.contents :=
    SortedBy.mem_ofList fun _ _ hk => hk
  rw [hlist, h, mem_contents_holds]

/-- A scan always comes to its end, and if it succeeds it has listed exactly the directories that
are reached from its root, each once, and has recorded of each the entries that stand for no
directory and are not left out. -/
theorem run_covers (d : Disk) (s : Scan) :
    (WellFounded fun later earlier => Turn d s.ignored earlier later) ∧
    (∀ root, s.start d = .ok root →
      ∃ last answer, Turns d s.ignored (.first root) last ∧ Ends d s.ignored last answer ∧
        s.visits d = answer.mapError Failure.fault) ∧
    ∀ ls, s.run d = .ok ls →
      ∃ root visits, s.start d = .ok root ∧ s.visits d = .ok visits ∧
        ls = .ofList (visits.map Visit.listing) ∧
        (visits.map (·.work.path)).Nodup ∧
        (∀ p, p ∈ visits.map (·.work.path) ↔ Reaches d s.ignored root p) ∧
        ∀ v ∈ visits, Records d s.ignored v.listing v.work.path := by
  refine ⟨wellFounded_turn, fun root hs => exists_turns_of_start hs, fun ls hrun => ?_⟩
  obtain ⟨visits, hvisits, hls⟩ := run_eq_ok_iff.mp hrun
  obtain ⟨root, hs, hexhausts⟩ := exists_exhausts_of_visits hvisits
  exact ⟨root, visits, hs, hvisits, hls, hexhausts.once, hexhausts.reached,
    fun v hv => records_listing (hexhausts.found hv)⟩

/-- A disk with the directories `a` and `a/c`, a file `a/c/f`, a link `a/b` back up, and a link `A`
that is a shorter way to `a/c`. -/
def tangled : Disk :=
  let A : Disk.Name := ⟨[65], by decide⟩
  let a : Disk.Name := ⟨[97], by decide⟩
  let b : Disk.Name := ⟨[98], by decide⟩
  let c : Disk.Name := ⟨[99], by decide⟩
  let f : Disk.Name := ⟨[102], by decide⟩
  ((((Disk.empty.put [a] (.directory .full)).put [c, a] (.directory .full)).put [f, c, a]
    (.file true ⟨#[]⟩)).put [b, a] (.link ⟨false, [.up]⟩)).put [A]
      (.link ⟨false, [.down a, .down c]⟩)

theorem run_tangled : (⟨"/", ∅⟩ : Scan).run tangled =
    .ok (.ofList [⟨".", ∅⟩, ⟨"a", ∅⟩, ⟨"a/c", .ofList ["f"]⟩]) := by
  cbv

/-- The links of a tangled disk neither keep the scan going nor have a directory listed twice. -/
theorem run_covers_tangled :
    ∃ ls, (⟨"/", ∅⟩ : Scan).run tangled = .ok ls ∧
      ∃ root visits, (⟨"/", ∅⟩ : Scan).start tangled = .ok root ∧
        (⟨"/", ∅⟩ : Scan).visits tangled = .ok visits ∧
        ls = .ofList (visits.map Visit.listing) ∧ (visits.map (·.work.path)).Nodup := by
  obtain ⟨root, visits, hs, hv, hls, hd, -⟩ := (run_covers tangled ⟨"/", ∅⟩).2.2 _ run_tangled
  exact ⟨_, run_tangled, root, visits, hs, hv, hls, hd⟩

end Scan

end LicenseAudit
