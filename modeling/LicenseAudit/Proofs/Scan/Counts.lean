import LicenseAudit.Proofs.Scan.Names

/-!
# How much a report tells

A scan lists every directory once, but its report has one record for a name, and a record has a name
once. Names are texts. On a legible disk nothing is lost by that: the texts of the entries of a
directory differ, and so do the names of directories. On any other disk names that are no text may
be read as the same one. Of several such directories only the one listed first is in the report
(`find?_listings`), and several such files are recorded as one (`size_contents`).
-/

set_option autoImplicit false

namespace LicenseAudit

namespace Disk

theorem Name.IsText.text_injective {m n : Name} (hm : m.IsText) (hn : n.IsText)
    (h : m.text = n.text) : m = n := by
  apply Name.ext_bytes
  rw [← hm.write_text, h, hn.write_text]

theorem nodup_entries (d : Disk) (p : Path) : ((d.entries p).map (·.1)).Nodup := by
  refine List.pairwise_map.mpr ((d.entries_ascending p).imp ?_)
  intro e e' hlt hname
  have hsame : compare e'.1.bytes e'.1.bytes = .eq := Std.ReflCmp.compare_self
  rw [hname, hsame] at hlt
  cases hlt

end Disk

namespace Scan

variable {d : Disk} {ignored : NameSet}

/-- The entries of a directory that stand for no directory and are not left out. -/
def contentEntries (d : Disk) (ignored : NameSet) (p : Disk.Path) :
    List (Disk.Name × Disk.Node) :=
  (kept d ignored p).filter fun e => (d.directoryAt? (e.1 :: p) e.2).isNone

theorem contents_holds {work : Work} :
    (holds d ignored work).contents =
      (contentEntries d ignored work.path).map fun e => e.1.text := by
  show (kept d ignored work.path).filterMap (content? d work.path) = _
  unfold contentEntries
  induction kept d ignored work.path with
  | nil => rfl
  | cons e entries ih =>
    rw [filterMap_cons_toList, ih, content?]
    cases h : d.directoryAt? (e.1 :: work.path) e.2 <;> simp [h]

theorem nodup_texts (hd : d.Legible) (ignored : NameSet) (p : Disk.Path) :
    ((contentEntries d ignored p).map fun e => e.1.text).Nodup := by
  have hsub : (contentEntries d ignored p).Sublist (d.entries p) :=
    List.filter_sublist.trans List.filter_sublist
  have hnames : ((contentEntries d ignored p).map (·.1)).Nodup :=
    (hsub.map _).nodup (d.nodup_entries p)
  refine List.Nodup.map_on ?_ (List.Nodup.of_map _ hnames)
  intro e he e' he' htext
  have hname : e.1 = e'.1 := (hd p e (hsub.mem he)).text_injective (hd p e' (hsub.mem he')) htext
  exact List.inj_on_of_nodup_map hnames he he' hname

theorem find?_listings {visits : List Visit} {name : String} :
    (SortedBy.ofList (visits.map Visit.listing) : Listings).find? name =
      (visits.find? fun v => v.work.name = name).map Visit.listing := by
  rw [SortedBy.find?_ofList, List.find?_map]
  rfl

theorem size_listings (visits : List Visit) :
    (SortedBy.ofList (visits.map Visit.listing) : Listings).size =
      (visits.map (·.work.name)).dedup.length := by
  rw [SortedBy.size_ofList, List.map_map]
  rfl

theorem size_contents {v : Visit} (h : v.found = holds d ignored v.work) :
    v.listing.contents.size =
      ((contentEntries d ignored v.work.path).map fun e => e.1.text).dedup.length := by
  rw [← contents_holds, ← h, ← List.map_id' v.found.contents]
  exact SortedBy.size_ofList v.found.contents

/-- A scan that succeeds tells, under each name, of the directory that was listed under it first,
and of each directory the names of its content, once each. There are as many records as names, and
on a legible disk as many as directories; there no content goes under either. -/
theorem run_counts {s : Scan} {ls : Listings} (h : s.run d = .ok ls) :
    ∃ visits, s.visits d = .ok visits ∧ (visits.map (·.work.path)).Nodup ∧
      (∀ name, ls.find? name = (visits.find? fun v => v.work.name = name).map Visit.listing) ∧
      ls.size = (visits.map (·.work.name)).dedup.length ∧
      (∀ v ∈ visits, v.listing.contents.size =
        ((contentEntries d s.ignored v.work.path).map fun e => e.1.text).dedup.length) ∧
      (d.Legible → ls.size = visits.length ∧ ∀ v ∈ visits, v.listing ∈ ls ∧
        v.listing.contents.size = (contentEntries d s.ignored v.work.path).length) := by
  obtain ⟨visits, hvisits, rfl⟩ := run_eq_ok_iff.mp h
  obtain ⟨root, -, hexhausts⟩ := exists_exhausts_of_visits hvisits
  have hcontents : ∀ v ∈ visits, v.listing.contents.size =
      ((contentEntries d s.ignored v.work.path).map fun e => e.1.text).dedup.length :=
    fun v hv => size_contents (hexhausts.found hv)
  refine ⟨visits, hvisits, hexhausts.once, fun name => find?_listings, size_listings visits,
    hcontents, ?_⟩
  intro hd
  constructor
  · rw [size_listings, (nodup_names_of_visits hd hvisits).dedup, List.length_map]
  · intro v hv
    have hmem := ((listings_of_visits hd hvisits).1 v.listing).mpr ⟨v, hv, rfl⟩
    have hnodup := nodup_texts hd s.ignored v.work.path
    exact ⟨hmem, by rw [hcontents v hv, hnodup.dedup, List.length_map]⟩

/-- Of a tangled disk, whose names are all text, every directory has its record. -/
theorem run_counts_tangled :
    ∃ ls visits, (⟨"/", ∅⟩ : Scan).run tangled = .ok ls ∧
      (⟨"/", ∅⟩ : Scan).visits tangled = .ok visits ∧ tangled.Legible ∧
      ls.size = visits.length ∧ ∀ v ∈ visits, v.listing ∈ ls := by
  obtain ⟨visits, hvisits, -, -, -, -, hlegible⟩ := run_counts run_tangled
  obtain ⟨hsize, hall⟩ := hlegible legible_tangled
  exact ⟨_, visits, run_tangled, hvisits, legible_tangled, hsize, fun v hv => (hall v hv).1⟩

/-- A disk with two directories whose names are a single byte each, and no text, and a file in
either. -/
def misread : Disk :=
  let x : Disk.Name := ⟨[254], by decide⟩
  let y : Disk.Name := ⟨[255], by decide⟩
  let m : Disk.Name := ⟨[109], by decide⟩
  let n : Disk.Name := ⟨[110], by decide⟩
  (((Disk.empty.put [x] (.directory .full)).put [n, x] (.file true ⟨#[]⟩)).put [y]
    (.directory .full)).put [m, y] (.file true ⟨#[]⟩)

theorem listings_misread :
    ((⟨"/", ∅⟩ : Scan).visits misread).map (·.map Visit.listing) =
      .ok [⟨".", ∅⟩, ⟨"\uFFFD", .ofList ["n"]⟩, ⟨"\uFFFD", .ofList ["m"]⟩] := by
  cbv

/-- Where names are no text a scan may list more directories than it reports, and report nothing of
a file that it found. -/
theorem run_merges_misread :
    ∃ ls visits, (⟨"/", ∅⟩ : Scan).run misread = .ok ls ∧
      (⟨"/", ∅⟩ : Scan).visits misread = .ok visits ∧ ls.size < visits.length ∧
      (∃ v ∈ visits, "m" ∈ v.listing.contents) ∧ ∀ l ∈ ls, "m" ∉ l.contents := by
  cases hvisits : (⟨"/", ∅⟩ : Scan).visits misread with
  | error fault =>
    have hlistings := listings_misread
    rw [hvisits] at hlistings
    cases hlistings
  | ok visits =>
    have hlistings := listings_misread
    rw [hvisits] at hlistings
    have hmap : visits.map Visit.listing =
        [⟨".", ∅⟩, ⟨"\uFFFD", .ofList ["n"]⟩, ⟨"\uFFFD", .ofList ["m"]⟩] := Except.ok.inj hlistings
    have hlength : visits.length = 3 := by rw [← List.length_map Visit.listing, hmap]; rfl
    refine ⟨_, visits, run_eq_ok_iff.mpr ⟨visits, hvisits, rfl⟩, rfl, ?_, ?_, ?_⟩
    · rw [hlength, hmap]
      decide
    · have hmem : (⟨"\uFFFD", .ofList ["m"]⟩ : Listing) ∈ visits.map Visit.listing := by
        rw [hmap]
        simp
      obtain ⟨v, hv, hl⟩ := List.mem_map.mp hmem
      exact ⟨v, hv, by rw [hl]; decide⟩
    · rw [hmap]
      decide

end Scan

end LicenseAudit
