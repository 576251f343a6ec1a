import LicenseAudit.Proofs.Scan.Counts

/-!
# What a scan overlooks

A link counts as content unless its metadata show a directory, and metadata may be refused for a
link that does lead to one (`Disk.Hides`). That is the one way for a directory to be overlooked. An
entry that leads to a directory and is no such link is listed, for a directory that cannot be listed
fails the scan. No link is hidden on a disk whose directories may all be searched, unless there are
too many links on its way or its path is too long.

`chained` is a disk where a scan overlooks a directory.
-/

set_option autoImplicit false

namespace LicenseAudit

namespace Disk

/-- The entry is a link whose metadata are refused. -/
def Hides (d : Disk) (path : Path) : Node → Prop
  | .link _ => ∃ why, routeTo path >>= d.stat = .error why
  | _ => False

variable {d : Disk}

theorem directoryAt?_of_hides {path : Path} {node : Node} (h : d.Hides path node) :
    d.directoryAt? path node = none := by
  cases node with
  | file | directory => cases h
  | link target =>
    obtain ⟨why, hwhy⟩ := h
    simp only [directoryAt?, hwhy]

theorem stat_ofPath {n : Name} {p : Path} (hfits : Path.fits (n :: p) = true) :
    (routeTo (n :: p) >>= d.stat) = d.stat (.ofPath (n :: p)) := by
  rw [routeTo, if_pos hfits]
  rfl

/-- What leads to a directory stands for it, unless it is hidden. -/
theorem LeadsTo.directoryAt?_eq {links : Nat} {n : Name} {p q : Path} {node : Node}
    (h : d.LeadsTo links p [.down n] q) (hq : d.isDirectory q = true) (hp : d.Stands p)
    (hn : d.node? (n :: p) = some node) (hshown : ¬d.Hides (n :: p) node) :
    d.directoryAt? (n :: p) node = some q := by
  obtain ⟨a, hq⟩ := node?_of_isDirectory hq
  cases node with
  | file readable content => cases h <;> simp_all
  | directory a =>
    cases h with
    | file entry => simp_all
    | down entry way =>
      cases way
      rfl
    | through entry way => simp_all
  | link target =>
    cases hs : routeTo (n :: p) >>= d.stat with
    | error why => exact absurd ⟨why, hs⟩ hshown
    | ok shown =>
      obtain ⟨q', node'⟩ := shown
      -- what was shown is what following comes to, and that is where the link leads
      have hfits : Path.fits (n :: p) = true := by
        by_contra hlong
        rw [routeTo, if_neg hlong] at hs
        cases hs
      obtain ⟨hr, hn'⟩ := stat_eq_ok ((stat_ofPath hfits).symm.trans hs)
      obtain rfl := (h.ofPath hp).eq_of_walk hr
      rw [hq] at hn'
      cases hn'
      simp only [directoryAt?, hs]

/-- A link is hidden only by what may not be searched, by too many links, or by a path too long. -/
theorem LeadsTo.not_hides {links : Nat} {n : Name} {p q : Path} {node : Node}
    (h : d.LeadsTo links p [.down n] q) (hq : d.isDirectory q = true) (hp : d.Stands p)
    (hd : d.Searchable) (hl : links ≤ linkLimit) (hfits : Path.fits (n :: p) = true) :
    ¬d.Hides (n :: p) node := by
  cases node with
  | file | directory => exact not_false
  | link target =>
    obtain ⟨a, hq⟩ := node?_of_isDirectory hq
    have hroot : d.Stands [] := trivial
    have hr : d.resolve (.ofPath (n :: p)) = .ok q := (h.ofPath hp).walk_eq hd hroot hl
    intro hhides
    obtain ⟨why, hs⟩ := hhides
    rw [stat_ofPath hfits] at hs
    simp [stat, hr, hq, bind, Except.bind, pure, Except.pure] at hs

end Disk

namespace Scan

variable {d : Disk} {ignored : NameSet} {root : Disk.Path}

theorem readable_of_list {work : Work} {found : Found} (h : list d ignored work = .ok found) :
    ∃ a, d.access? work.path = some a ∧ a.read = true := by
  unfold list at h
  split at h
  · cases h
  · rename_i a ha
    split at h
    · exact ⟨a, ha, ‹_›⟩
    · cases h

theorem mem_contentEntries {p : Disk.Path} {e : Disk.Name × Disk.Node} :
    e ∈ contentEntries d ignored p ↔
      e ∈ kept d ignored p ∧ d.directoryAt? (e.1 :: p) e.2 = none := by
  rw [contentEntries, List.mem_filter, Option.isNone_iff_eq_none]

/-- A scan that succeeds could read every directory that it listed, and has listed whatever an entry
there leads to, unless the entry is left out or is a link whose metadata are refused. Such a link is
recorded as content. -/
theorem run_overlooks {s : Scan} {ls : Listings} (h : s.run d = .ok ls) :
    ∃ visits, s.visits d = .ok visits ∧ ls = .ofList (visits.map Visit.listing) ∧
      ∀ v ∈ visits, (∃ a, d.access? v.work.path = some a ∧ a.read = true) ∧
        v.found.contents = (contentEntries d s.ignored v.work.path).map (fun e => e.1.text) ∧
        ∀ e ∈ kept d s.ignored v.work.path, ∀ links q,
          d.LeadsTo links v.work.path [.down e.1] q → d.isDirectory q = true →
          (¬d.Hides (e.1 :: v.work.path) e.2 →
            (∃ w ∈ visits, w.work.path = q) ∧ e ∉ contentEntries d s.ignored v.work.path) ∧
          (d.Hides (e.1 :: v.work.path) e.2 → e ∈ contentEntries d s.ignored v.work.path) ∧
          (d.Searchable → links ≤ Disk.linkLimit →
            Disk.Path.fits (e.1 :: v.work.path) = true →
            ¬d.Hides (e.1 :: v.work.path) e.2) := by
  obtain ⟨visits, hvisits, rfl⟩ := run_eq_ok_iff.mp h
  obtain ⟨root, -, hexhausts⟩ := exists_exhausts_of_visits hvisits
  refine ⟨visits, hvisits, rfl, fun v hv => ⟨readable_of_list (hexhausts.listed v hv), ?_, ?_⟩⟩
  · rw [hexhausts.found hv, contents_holds]
  intro e he links q hleads hdirectory
  have hstands := hexhausts.stands v hv
  refine ⟨fun hshown => ?_, fun hhides => ?_,
    fun hd hl hfits => hleads.not_hides hdirectory hstands hd hl hfits⟩
  · have hnode := Disk.mem_entries.mp (mem_kept.mp he).1
    have hq := hleads.directoryAt?_eq hdirectory hstands hnode hshown
    have hreached : Reaches d s.ignored root q :=
      ((hexhausts.reached _).mp (List.mem_map_of_mem hv)).tail ⟨e, he, hq⟩
    refine ⟨List.mem_map.mp ((hexhausts.reached q).mpr hreached), fun hcontent => ?_⟩
    rw [(mem_contentEntries.mp hcontent).2] at hq
    cases hq
  · exact mem_contentEntries.mpr ⟨he, Disk.directoryAt?_of_hides hhides⟩

/-- A name of one byte. -/
def letter (b : UInt8) : Disk.Name := (Disk.Name.ofBytes? [b]).getD ⟨[120], by decide⟩

/-- A disk with a directory `r`, where a link `k` leads to the directory `u` and a link `l` to
`s/t`, and the directory `s` may not be searched. -/
def guarded : Disk :=
  (((((Disk.empty.put [letter 114] (.directory .full)).put [letter 115]
    (.directory ⟨true, false⟩)).put [letter 116, letter 115] (.directory .full)).put [letter 117]
      (.directory .full)).put [letter 108, letter 114]
        (.link ⟨false, [.up, .down (letter 115), .down (letter 116)]⟩)).put [letter 107, letter 114]
          (.link ⟨false, [.up, .down (letter 117)]⟩)

theorem visits_guarded : (⟨"/r", ∅⟩ : Scan).visits guarded =
    .ok [⟨⟨[letter 114], "."⟩, ⟨["l"], [], [⟨[letter 117], "k"⟩]⟩⟩,
      ⟨⟨[letter 117], "k"⟩, ⟨[], [], []⟩⟩] := by
  cbv

/-- Of two links to directories the one whose metadata are shown is followed; the other is content.
-/
theorem run_overlooks_guarded :
    ∃ ls visits, (⟨"/r", ∅⟩ : Scan).run guarded = .ok ls ∧
      (⟨"/r", ∅⟩ : Scan).visits guarded = .ok visits ∧
      (∃ w ∈ visits, w.work.path = [letter 117]) ∧
      ∃ e ∈ contentEntries guarded ∅ [letter 114], e.1 = letter 108 ∧
        guarded.LeadsTo 1 [letter 114] [.down e.1] [letter 116, letter 115] ∧
        guarded.isDirectory [letter 116, letter 115] = true := by
  have hrun := run_eq_ok_iff.mpr ⟨_, visits_guarded, rfl⟩
  have hshown : guarded.node? [letter 107, letter 114] =
      some (.link ⟨false, [.up, .down (letter 117)]⟩) := by cbv
  have hhidden : guarded.node? [letter 108, letter 114] =
      some (.link ⟨false, [.up, .down (letter 115), .down (letter 116)]⟩) := by cbv
  have hopen : guarded.node? [letter 117] = some (.directory .full) := by cbv
  have hclosed : guarded.node? [letter 115] = some (.directory ⟨true, false⟩) := by cbv
  have hinside : guarded.node? [letter 116, letter 115] = some (.directory .full) := by cbv
  have hmeta : (Disk.routeTo [letter 107, letter 114] >>= guarded.stat) =
      .ok ([letter 117], .directory .full) := by cbv
  have hrefused : (Disk.routeTo [letter 108, letter 114] >>= guarded.stat) = .error .denied := by
    cbv
  obtain ⟨visits, hvisits, -, hall⟩ := run_overlooks hrun
  obtain rfl := Except.ok.inj (visits_guarded.symm.trans hvisits)
  obtain ⟨-, -, hentries⟩ := hall _ List.mem_cons_self
  have hkept : ∀ {n node}, guarded.node? [n, letter 114] = some node →
      (n, node) ∈ kept guarded ∅ [letter 114] := fun hn =>
    mem_kept.mpr ⟨Disk.mem_entries.mpr hn, SortedBy.not_mem_empty⟩
  have hleads : guarded.LeadsTo 1 [letter 114] [.down (letter 108)] [letter 116, letter 115] :=
    .through hhidden (.up (.down hclosed (.down hinside (.here _))))
  have hdirectory := Disk.isDirectory_of_node? hinside
  have hcontent := (hentries _ (hkept hhidden) 1 _ hleads hdirectory).2.1 ⟨_, hrefused⟩
  have hfollowed := (hentries _ (hkept hshown) 1 [letter 117]
    (.through hshown (.up (.down hopen (.here _)))) (Disk.isDirectory_of_node? hopen)).1
  refine ⟨_, _, hrun, visits_guarded, (hfollowed ?_).1, _, hcontent, rfl, hleads, hdirectory⟩
  intro hhides
  obtain ⟨why, hwhy⟩ := hhides
  cases hmeta.symm.trans hwhy

/-- A disk with a directory `r` and a link in it that leads, through forty more, to the directory
`b`. -/
def chained : Disk :=
  (List.range 40).foldr
    (fun i d => d.put [letter (.ofNat (58 + i))]
      (.link ⟨false, [.down (letter (.ofNat (59 + i)))]⟩))
    (((Disk.empty.put [letter 114] (.directory .full)).put [letter 108, letter 114]
      (.link ⟨false, [.up, .down (letter 58)]⟩)).put [letter 98] (.directory .full))

theorem visits_chained :
    (⟨"/r", ∅⟩ : Scan).visits chained = .ok [⟨⟨[letter 114], "."⟩, ⟨["l"], [], []⟩⟩] := by
  cbv

/-- At the end of too many links there is a directory, which a scan that succeeds neither lists nor
fails for; the first of the links is reported as content. -/
theorem chained_overlooked :
    ∃ ls visits, (⟨"/r", ∅⟩ : Scan).run chained = .ok ls ∧
      (⟨"/r", ∅⟩ : Scan).visits chained = .ok visits ∧
      (∃ v ∈ visits, ∃ e ∈ kept chained ∅ v.work.path,
        (∃ links, chained.LeadsTo links v.work.path [.down e.1] [letter 98]) ∧
        v.listing ∈ ls ∧ e.1.text ∈ v.listing.contents) ∧
      chained.isDirectory [letter 98] = true ∧ ∀ w ∈ visits, w.work.path ≠ [letter 98] := by
  have hwalk : chained.walk .stepwise 41 [letter 114] [.down (letter 108)] = .ok [letter 98] := by
    cbv
  have hlink : chained.node? [letter 108, letter 114] =
      some (.link ⟨false, [.up, .down (letter 58)]⟩) := by cbv
  have hend : chained.isDirectory [letter 98] = true := by cbv
  have hkept : (letter 108, Disk.Node.link ⟨false, [.up, .down (letter 58)]⟩) ∈
      kept chained ∅ [letter 114] :=
    mem_kept.mpr ⟨Disk.mem_entries.mpr hlink, SortedBy.not_mem_empty⟩
  refine ⟨_, _, run_eq_ok_iff.mpr ⟨_, visits_chained, rfl⟩, visits_chained,
    ⟨_, List.mem_singleton.mpr rfl, _, hkept, Disk.leadsTo_of_walk hwalk, ?_, ?_⟩, hend, ?_⟩
  · decide
  · decide
  · intro w hw
    rw [List.mem_singleton.mp hw]
    decide

end Scan

end LicenseAudit
