import LicenseAudit.Proofs.Scan.Counts
import LicenseAudit.Proofs.Scan.Failures

/-!
# Leaving out more

Two scans of one place that leave out different names go through different directories, in different
orders, and a directory may even change its name, when only a link is left to lead to it. What they
have in common is the disk. Everything that a scan depends on can only shrink when more is left out:
what a directory keeps, where it leads, what it is stuck at, and which ways of real entries there
are. So the scan that leaves out more comes to no directory that the other did not list
(`Reaches.mono`), fails at none that the other got through (`Stuck.mono`), and records of each what
the other does, less the names left out (`Records.less`).

The names that a scan reports are put together from those of entries that were kept, and come apart
into them again, since no entry's name is read as one with a slash (`parts_childName`).
-/

set_option autoImplicit false

namespace LicenseAudit

namespace Scan

/-! ## What shrinks -/

section Shrinking

variable {d : Disk} {fewer more : NameSet} {root p q : Disk.Path}

theorem mem_kept_of_more (hsub : ∀ name ∈ fewer, name ∈ more) {e : Disk.Name × Disk.Node}
    (he : e ∈ kept d more p) : e ∈ kept d fewer p := by
  obtain ⟨hentry, hkept⟩ := mem_kept.mp he
  exact mem_kept.mpr ⟨hentry, fun hname => hkept (hsub _ hname)⟩

theorem Leads.mono (hsub : ∀ name ∈ fewer, name ∈ more) (h : Leads d more p q) :
    Leads d fewer p q := by
  obtain ⟨e, he, hq⟩ := h
  exact ⟨e, mem_kept_of_more hsub he, hq⟩

theorem Reaches.mono (hsub : ∀ name ∈ fewer, name ∈ more) (h : Reaches d more p q) :
    Reaches d fewer p q :=
  Relation.ReflTransGen.mono (fun _ _ hl => Leads.mono hsub hl) _ _ h

theorem Stuck.mono (hsub : ∀ name ∈ fewer, name ∈ more) (h : Stuck d more p) :
    Stuck d fewer p := by
  rcases h with hunread | ⟨e, he, hbar⟩
  · exact .inl hunread
  · exact .inr ⟨e, mem_kept_of_more hsub he, hbar⟩

theorem RealWay.mono (hsub : ∀ name ∈ fewer, name ∈ more) {names : List Disk.Name}
    (h : RealWay d more root names p) : RealWay d fewer root names p := by
  induction h with
  | start => exact .start
  | down way entry ih => exact .down ih (mem_kept_of_more hsub entry)

/-- Of the content of a directory only the names left out are missing. -/
theorem Records.less (hsub : ∀ name ∈ fewer, name ∈ more) {l l' : Listing}
    (hl : Records d fewer l p) (hl' : Records d more l' p) (name : String) :
    name ∈ l'.contents ↔ name ∈ l.contents ∧ name ∉ more := by
  rw [hl' name, hl name]
  constructor
  · rintro ⟨e, he, rfl, hnone⟩
    exact ⟨⟨e, mem_kept_of_more hsub he, rfl, hnone⟩, (mem_kept.mp he).2⟩
  · rintro ⟨⟨e, he, rfl, hnone⟩, hname⟩
    exact ⟨e, mem_kept.mpr ⟨(mem_kept.mp he).1, hname⟩, rfl, hnone⟩

end Shrinking

variable {d : Disk} {ignored : NameSet} {root : Disk.Path}

/-! ## A scan that succeeds still does -/

theorem askable_of_start {s : Scan} (h : s.start d = .ok root) : d.Askable root := by
  obtain ⟨route, hr⟩ := exists_canonical_of_start h
  exact Disk.askable_of_canonical hr

theorem Exhausts.isDirectory_root {visits : List Visit} (h : Exhausts d ignored root visits) :
    d.isDirectory root = true := by
  obtain ⟨v, hv, hroot⟩ := List.mem_map.mp ((h.reached root).mpr .refl)
  exact hroot ▸ (h.stands v hv).isDirectory

/-- A scan that succeeds has come to no directory that is stuck. -/
theorem not_stuck_of_visits {s : Scan} {visits : List Visit} (h : s.visits d = .ok visits)
    (hs : s.start d = .ok root) (hd : d.isDirectory root = true) {p : Disk.Path}
    (hp : Reaches d s.ignored root p) : ¬Stuck d s.ignored p := by
  rcases run_cases hs (askable_of_start hs) hd with ⟨-, hclear⟩ | ⟨ws, w, failure, herror, -⟩
  · have hproceeds : Proceeds d s.ignored root p := by
      induction hp with
      | refl => exact .refl
      | tail _ hl ih => exact ih.tail ⟨hclear _ ih, hl⟩
    exact hclear p hproceeds
  · rw [run_eq_ok_iff.mpr ⟨visits, h, rfl⟩] at herror
    cases herror

/-- Where a scan goes through, one that leaves out more does so, too. -/
theorem exists_visits_of_more {place : String} {fewer more : NameSet}
    (hsub : ∀ name ∈ fewer, name ∈ more) {visits : List Visit}
    (h : (⟨place, fewer⟩ : Scan).visits d = .ok visits) :
    ∃ visits', (⟨place, more⟩ : Scan).visits d = .ok visits' := by
  obtain ⟨root, hs, hexhausts⟩ := exists_exhausts_of_visits h
  -- where a scan starts has nothing to do with what it leaves out
  have hs' : (⟨place, more⟩ : Scan).start d = .ok root := hs
  have hd := hexhausts.isDirectory_root
  rcases run_cases hs' (askable_of_start hs') hd with
    ⟨⟨ls, hrun⟩, -⟩ | ⟨ws, w, failure, -, -, -, -, hproceeds, hfails⟩
  · obtain ⟨visits', hvisits', -⟩ := run_eq_ok_iff.mp hrun
    exact ⟨visits', hvisits'⟩
  · have hclear := not_stuck_of_visits h hs hd (hproceeds.reaches.mono hsub)
    exact absurd (hfails.stuck.mono hsub) hclear

/-! ## The parts of a name -/

/-- The parts of a name between its slashes. -/
def parts (name : String) : List String := (name.toList.splitOn '/').map String.ofList

theorem parts_text (n : Disk.Name) : parts n.text = [n.text] := by
  rw [parts, List.splitOn_eq_singleton n.slash_not_mem_text, List.map_singleton,
    String.ofList_toList]

theorem parts_childName {parent : String} (h : parent ≠ rootName) (n : Disk.Name) :
    parts (childName parent n.text) = parts parent ++ [n.text] := by
  have hslash : (parent ++ "/" ++ n.text).toList = parent.toList ++ '/' :: n.text.toList := by
    simp
  rw [childName, if_neg h, parts, hslash, List.splitOn_append_cons_self, List.map_append, ← parts,
    ← parts, parts_text]

/-- The name is that of the root, or none of its parts is left out. -/
def Spared (ignored : NameSet) (name : String) : Prop :=
  name ≠ rootName → ∀ part ∈ parts name, part ∉ ignored

theorem Spared.childName {parent : String} (h : Spared ignored parent) {n : Disk.Name}
    (hn : n.text ∉ ignored) : Spared ignored (Scan.childName parent n.text) := by
  intro _ part hpart
  by_cases hroot : parent = rootName
  · rw [Scan.childName, if_pos hroot, parts_text, List.mem_singleton] at hpart
    rwa [hpart]
  · rw [parts_childName hroot, List.mem_append, List.mem_singleton] at hpart
    rcases hpart with hpart | rfl
    · exact h hroot part hpart
    · exact hn

/-- Every name so far is put together from names that were kept. -/
structure Sparing (ignored : NameSet) (p : Progress) : Prop where
  waiting : ∀ w ∈ p.waiting, Spared ignored w.name
  made : ∀ v ∈ p.made, Spared ignored v.work.name

theorem sparing_first : Sparing ignored (.first root) where
  waiting w hw hne := by
    rw [List.mem_singleton.mp hw] at hne
    exact absurd rfl hne
  made v hv := by cases hv

theorem Sparing.turn {p q : Progress} (h : Turn d ignored p q) (hc : Covers d ignored root p)
    (hp : Sparing ignored p) : Sparing ignored q where
  waiting v hv := by
    rcases h.waiting_cases hv with hv | ⟨w, found, hw, listed, hv⟩
    · exact hp.waiting v hv
    · obtain ⟨rfl, -⟩ := list_spec (hc.stands w hw) listed
      obtain ⟨e, he, -, hname⟩ := mem_children_holds.mp hv
      rw [hname]
      exact (hp.waiting w hw).childName (mem_kept.mp he).2
  made v hv := by
    rcases h.made_cases hv with hv | ⟨hw, -⟩
    · exact hp.made v hv
    · exact hp.waiting v.work hw

theorem spared_of_visits {s : Scan} {visits : List Visit} (h : s.visits d = .ok visits) :
    ∀ v ∈ visits, Spared s.ignored v.work.name := by
  obtain ⟨root, last, hs, hturns, -, rfl⟩ := exists_turns_of_visits h
  have hstep : ∀ {p q : Progress}, Turn d s.ignored p q →
      Covers d s.ignored root p ∧ Sparing s.ignored p →
      Covers d s.ignored root q ∧ Sparing s.ignored q := by
    intro p q hturn hp
    exact ⟨hp.1.turn hturn, hp.2.turn hturn hp.1⟩
  have hlast := (hturns.keeps hstep ⟨covers_first (stands_of_start hs), sparing_first⟩).2
  intro v hv
  exact hlast.made v (List.mem_reverse.mp hv)

/-! ## Two scans of one place -/

/-- On a legible disk a directory with a real name was listed under it. -/
theorem exists_visit_of_realWay (hd : d.Legible) {s : Scan} {visits : List Visit}
    (h : s.visits d = .ok visits) (hs : s.start d = .ok root) {names : List Disk.Name}
    {p : Disk.Path} (hway : RealWay d s.ignored root names p) :
    ∃ v ∈ visits, v.work = ⟨p, joined names⟩ := by
  obtain ⟨root', last, hs', hn, rfl, -, -, hreal⟩ := exists_faithful_of_visits hd h
  obtain rfl : root = root' := Except.ok.inj (hs.symm.trans hs')
  have hdone : p ∈ last.done := hreal.all_done (List.append_eq_nil_iff.mp hn).1 hway
  obtain ⟨v, hv, rfl⟩ := List.mem_map.mp hdone
  refine ⟨v, List.mem_reverse.mpr hv, ?_⟩
  rw [← hreal.named v hv names hway]

/-- A scan that succeeds still does if it leaves out more. It then lists some of the directories
that it listed before, and records of each what it recorded before, less the names left out; none of
these is in a name that it reports. On a legible disk a directory that is reached through real
entries which are not left out is reported as before, under their names. -/
theorem run_ignores_more {place : String} {fewer more : NameSet}
    (hsub : ∀ name ∈ fewer, name ∈ more) {ls : Listings}
    (h : (⟨place, fewer⟩ : Scan).run d = .ok ls) :
    ∃ root visits visits' ls', (⟨place, fewer⟩ : Scan).start d = .ok root ∧
      (⟨place, fewer⟩ : Scan).visits d = .ok visits ∧ ls = .ofList (visits.map Visit.listing) ∧
      (⟨place, more⟩ : Scan).visits d = .ok visits' ∧
      (⟨place, more⟩ : Scan).run d = .ok ls' ∧ ls' = .ofList (visits'.map Visit.listing) ∧
      (∀ v' ∈ visits', ∃ v ∈ visits, v.work.path = v'.work.path ∧
        ∀ name, name ∈ v'.listing.contents ↔ name ∈ v.listing.contents ∧ name ∉ more) ∧
      (∀ l ∈ ls', (l.name ≠ "." → ∀ part ∈ parts l.name, part ∉ more) ∧
        ∀ name ∈ l.contents, name ∉ more) ∧
      (d.Legible → ∀ names p, RealWay d more root names p →
        ∃ v ∈ visits, ∃ v' ∈ visits', v.work = ⟨p, joined names⟩ ∧ v'.work = ⟨p, joined names⟩ ∧
          v.listing ∈ ls ∧ v'.listing ∈ ls') := by
  obtain ⟨visits, hvisits, rfl⟩ := run_eq_ok_iff.mp h
  obtain ⟨visits', hvisits'⟩ := exists_visits_of_more hsub hvisits
  obtain ⟨root, hs, hexhausts⟩ := exists_exhausts_of_visits hvisits
  obtain ⟨root', hs', hexhausts'⟩ := exists_exhausts_of_visits hvisits'
  obtain rfl : root = root' := Except.ok.inj (hs.symm.trans hs')
  have hrun' := run_eq_ok_iff.mpr ⟨visits', hvisits', rfl⟩
  have hless : ∀ v' ∈ visits', ∃ v ∈ visits, v.work.path = v'.work.path ∧
      ∀ name, name ∈ v'.listing.contents ↔ name ∈ v.listing.contents ∧ name ∉ more := by
    intro v' hv'
    have hreached := ((hexhausts'.reached _).mp (List.mem_map_of_mem hv')).mono hsub
    obtain ⟨v, hv, hpath⟩ := List.mem_map.mp ((hexhausts.reached _).mpr hreached)
    have hrecords := records_listing (hexhausts.found hv)
    rw [hpath] at hrecords
    exact ⟨v, hv, hpath, hrecords.less hsub (records_listing (hexhausts'.found hv'))⟩
  refine ⟨root, visits, visits', _, hs, hvisits, rfl, hvisits', hrun', rfl, hless, ?_, ?_⟩
  · intro l hl
    obtain ⟨v', hv', rfl⟩ := List.mem_map.mp (SortedBy.mem_of_mem_ofList hl)
    obtain ⟨v, -, -, hcontents⟩ := hless v' hv'
    exact ⟨spared_of_visits hvisits' v' hv', fun name hname => ((hcontents name).mp hname).2⟩
  · intro hd names p hway
    obtain ⟨v, hv, hwork⟩ := exists_visit_of_realWay hd hvisits hs (hway.mono hsub)
    obtain ⟨v', hv', hwork'⟩ := exists_visit_of_realWay hd hvisits' hs' hway
    exact ⟨v, hv, v', hv', hwork, hwork',
      ((listings_of_visits hd hvisits).1 _).mpr ⟨v, hv, rfl⟩,
      ((listings_of_visits hd hvisits').1 _).mpr ⟨v', hv', rfl⟩⟩

theorem run_tangled_fewer : (⟨"/", .ofList ["b"]⟩ : Scan).run tangled =
    .ok (.ofList [⟨".", ∅⟩, ⟨"a", ∅⟩, ⟨"a/c", .ofList ["f"]⟩]) := by
  cbv

/-- Where a visit was made, innermost entry first, and under which name. -/
def Visit.station (v : Visit) : List String × String := (v.work.path.map (·.text), v.work.name)

theorem visits_tangled_fewer : ((⟨"/", .ofList ["b"]⟩ : Scan).visits tangled).map
    (·.map Visit.station) = .ok [([], "."), (["a"], "a"), (["c", "a"], "a/c")] := by
  cbv

theorem visits_tangled_more : ((⟨"/", .ofList ["a", "b"]⟩ : Scan).visits tangled).map
    (·.map Visit.station) = .ok [([], "."), (["c", "a"], "A")] := by
  cbv

/-- A directory behind one that is now left out is still listed, under the name of a link to it. -/
theorem run_ignores_more_tangled :
    ∃ visits visits' ls', (⟨"/", .ofList ["b"]⟩ : Scan).visits tangled = .ok visits ∧
      (⟨"/", .ofList ["a", "b"]⟩ : Scan).visits tangled = .ok visits' ∧
      (⟨"/", .ofList ["a", "b"]⟩ : Scan).run tangled = .ok ls' ∧
      ∃ v ∈ visits, ∃ v' ∈ visits', v.work.path = v'.work.path ∧ v.work.name = "a/c" ∧
        v'.work.name = "A" ∧ ∀ name, name ∈ v'.listing.contents ↔
          name ∈ v.listing.contents ∧ name ∉ (.ofList ["a", "b"] : NameSet) := by
  obtain ⟨-, visits, visits', ls', -, hv, -, hv', hrun', -, hless, -, -⟩ :=
    @run_ignores_more tangled "/" (.ofList ["b"]) (.ofList ["a", "b"]) (by decide) _
      run_tangled_fewer
  have hfewer := visits_tangled_fewer
  have hmore := visits_tangled_more
  rw [hv] at hfewer
  rw [hv'] at hmore
  have hlisted : (["c", "a"], "A") ∈ visits'.map Visit.station := by
    rw [show visits'.map Visit.station = _ from Except.ok.inj hmore]
    decide
  obtain ⟨v', hmem', hstation'⟩ := List.mem_map.mp hlisted
  obtain ⟨v, hmem, hpath, hcontents⟩ := hless v' hmem'
  obtain ⟨htexts, hname'⟩ := Prod.mk.inj hstation'
  have hstation : v.station ∈ visits.map Visit.station := List.mem_map_of_mem hmem
  rw [show visits.map Visit.station = _ from Except.ok.inj hfewer, Visit.station, hpath, htexts]
    at hstation
  have hname : v.work.name = "a/c" := by simpa using hstation
  exact ⟨visits, visits', ls', hv, hv', hrun', v, hmem, v', hmem', hpath, hname, hname', hcontents⟩

end Scan

end LicenseAudit
