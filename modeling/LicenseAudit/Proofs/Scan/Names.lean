import LicenseAudit.Proofs.Disk.Following
import LicenseAudit.Proofs.Scan.Coverage

/-!
# The names that directories are reported under

On a legible disk a name that a scan reports can be followed from the root, entry by entry, to the
directory that is reported under it. So no two directories share a name, and the report has a
record for each directory that was listed.

**Real names win.** A directory that is reached through real entries alone is reported under their
names joined by slashes, whatever links lead to it as well. The invariant is `RealFirst`: while the
first queue was never found empty, everything listed or waiting in it has its real name; and once it
was found empty, every directory with a real name has been listed. The second part holds because
the first queue alone is closed under real subdirectories, and it is what keeps a link from naming
a directory that has a real name.
-/

set_option autoImplicit false

namespace LicenseAudit

namespace Scan

variable {d : Disk} {ignored : NameSet} {root : Disk.Path}

/-! ## Names can be followed -/

/-- The root has its own name; any other name leads to its directory. -/
def Named (d : Disk) (root : Disk.Path) (w : Work) : Prop :=
  w.name = rootName ∧ w.path = root ∨ w.name ≠ rootName ∧ d.follow root w.name = .ok w.path

theorem Named.path_eq {v w : Work} (hv : Named d root v) (hw : Named d root w)
    (h : v.name = w.name) : v.path = w.path := by
  rcases hv with ⟨hv, hvp⟩ | ⟨hv, hvp⟩
  · rcases hw with ⟨-, hwp⟩ | ⟨hw, -⟩
    · rw [hvp, hwp]
    · exact absurd (h ▸ hv) hw
  · rcases hw with ⟨hw, -⟩ | ⟨-, hwp⟩
    · exact absurd (h ▸ hw) hv
    · rw [h, hwp] at hvp
      exact (Except.ok.inj hvp).symm

theorem append_slash_ne_rootName (front back : String) : front ++ "/" ++ back ≠ rootName := by
  intro h
  have hmem : '/' ∈ (front ++ "/" ++ back).toList := by simp
  rw [h] at hmem
  revert hmem
  decide

theorem childName_ne_rootName {n : Disk.Name} (hn : n.IsText) (parent : String) :
    childName parent n.text ≠ rootName := by
  unfold childName
  split
  · exact hn.text_ne_dot
  · exact append_slash_ne_rootName parent n.text

/-- Where a directory's name leads to it, the names of its subdirectories do so too. -/
theorem Named.child {w : Work} (hw : Named d root w) {n : Disk.Name} (hn : n.IsText)
    {q : Disk.Path} (h : d.resolve (.ofPath (n :: w.path)) = .ok q) :
    Named d root ⟨q, childName w.name n.text⟩ := by
  refine .inr ⟨childName_ne_rootName hn w.name, ?_⟩
  rcases hw with ⟨hname, hpath⟩ | ⟨hname, hfollow⟩
  · show d.follow root (childName w.name n.text) = .ok q
    rw [childName, if_pos hname, Disk.follow_name hn, ← hpath, h]
  · show d.follow root (childName w.name n.text) = .ok q
    rw [childName, if_neg hname, Disk.follow_slash hn hfollow, h]

/-- Every name so far leads to its directory. -/
structure Faithful (d : Disk) (root : Disk.Path) (p : Progress) : Prop where
  waiting : ∀ w ∈ p.waiting, Named d root w
  made : ∀ v ∈ p.made, Named d root v.work

theorem faithful_first : Faithful d root (.first root) where
  waiting w hw := by
    rw [List.mem_singleton.mp hw]
    exact .inl ⟨rfl, rfl⟩
  made v hv := by cases hv

theorem isText_of_mem_kept (hd : d.Legible) {p : Disk.Path} {e : Disk.Name × Disk.Node}
    (he : e ∈ kept d ignored p) : e.1.IsText :=
  hd p e (List.mem_filter.mp he).1

theorem Faithful.turn (hd : d.Legible) {p q : Progress} (h : Turn d ignored p q)
    (hc : Covers d ignored root p) (hp : Faithful d root p) : Faithful d root q := by
  cases h with
  | @pass w rest next old =>
    exact ⟨fun v hv => hp.waiting v ((mem_waiting next).mpr (.inr hv)), hp.made⟩
  | @visit w rest found next new listed =>
    have hw : w ∈ p.waiting := (mem_waiting next).mpr (.inl rfl)
    have hnamed := hp.waiting w hw
    constructor
    · intro v hv
      rcases mem_waiting_add.mp hv with hv | hv
      · exact hp.waiting v ((mem_waiting next).mpr (.inr hv))
      · obtain ⟨rfl, hcanonical⟩ := list_spec (hc.stands w hw) listed
        obtain ⟨e, he, hq, hname⟩ := mem_children_holds.mp hv
        obtain ⟨path, name⟩ := v
        cases hname
        exact hnamed.child (isText_of_mem_kept hd he)
          (Disk.resolve_of_canonical (hcanonical e he path hq))
    · intro v hv
      rcases List.mem_cons.mp hv with rfl | hv
      · exact hnamed
      · exact hp.made v hv

/-! ## Real names -/

/-- A directory is reached from the root through real entries, of these names, that are not left
out. -/
inductive RealWay (d : Disk) (ignored : NameSet) (root : Disk.Path) :
    List Disk.Name → Disk.Path → Prop
  | start : RealWay d ignored root [] root
  | down {names : List Disk.Name} {p : Disk.Path} {n : Disk.Name} {a : Disk.Access}
      (way : RealWay d ignored root names p)
      (entry : (n, Disk.Node.directory a) ∈ kept d ignored p) :
      RealWay d ignored root (names ++ [n]) (n :: p)

/-- The names on a way, joined by slashes. -/
def joined : List Disk.Name → String
  | [] => rootName
  | n :: names => String.intercalate "/" ((n :: names).map Disk.Name.text)

theorem joined_of_ne_nil {names : List Disk.Name} (h : names ≠ []) :
    joined names = String.intercalate "/" (names.map Disk.Name.text) := by
  cases names with
  | nil => exact absurd rfl h
  | cons n names => rfl

theorem RealWay.path_eq {names : List Disk.Name} {p : Disk.Path}
    (h : RealWay d ignored root names p) : p = names.reverse ++ root := by
  induction h with
  | start => rfl
  | down _ _ ih => rw [ih, List.reverse_append, List.reverse_singleton, List.singleton_append]; rfl

theorem RealWay.names_eq {names names' : List Disk.Name} {p : Disk.Path}
    (h : RealWay d ignored root names p) (h' : RealWay d ignored root names' p) :
    names = names' := by
  have hrev : names.reverse ++ root = names'.reverse ++ root := by rw [← h.path_eq, h'.path_eq]
  exact List.reverse_injective (List.append_cancel_right hrev)

theorem joined_concat {names : List Disk.Name} {n : Disk.Name} (hnames : ∀ m ∈ names, m.IsText) :
    joined (names ++ [n]) = childName (joined names) n.text := by
  rw [joined_of_ne_nil (List.append_ne_nil_of_right_ne_nil _ (List.cons_ne_nil _ _)),
    List.map_append, List.map_singleton]
  cases names with
  | nil =>
    rw [List.map_nil, List.nil_append, String.intercalate_singleton, joined, childName,
      if_pos rfl]
  | cons m names =>
    -- a single name is no dot, and several have a slash between them
    have hne : joined (m :: names) ≠ rootName := by
      cases names with
      | nil =>
        rw [joined, List.map_singleton, String.intercalate_singleton]
        exact (hnames m List.mem_cons_self).text_ne_dot
      | cons k names =>
        rw [joined, List.map_cons, List.map_cons, String.intercalate_cons_cons]
        exact append_slash_ne_rootName _ _
    have hnames' : (m :: names).map Disk.Name.text ≠ [] := List.cons_ne_nil _ _
    rw [childName, if_neg hne, joined,
      String.intercalate_append_of_ne_nil hnames' (List.cons_ne_nil _ _),
      String.intercalate_singleton]

theorem RealWay.isText (hd : d.Legible) {names : List Disk.Name} {p : Disk.Path}
    (h : RealWay d ignored root names p) : ∀ n ∈ names, n.IsText := by
  induction h with
  | start => intro n hn; cases hn
  | down _ entry ih =>
    intro m hm
    rcases List.mem_append.mp hm with hm | hm
    · exact ih m hm
    · rw [List.mem_singleton.mp hm]
      exact isText_of_mem_kept hd entry

/-- A directory under its real name. -/
def RealNamed (d : Disk) (ignored : NameSet) (root : Disk.Path) (w : Work) : Prop :=
  ∃ names, RealWay d ignored root names w.path ∧ w.name = joined names

/-- A directory that was listed, or waits to be as a real one. -/
def Progress.KnowsReal (p : Progress) (q : Disk.Path) : Prop :=
  q ∈ p.done ∨ ∃ w ∈ p.queues.real, w.path = q

/-- The order in which directories are turned to. -/
structure RealFirst (d : Disk) (ignored : NameSet) (root : Disk.Path) (p : Progress) : Prop where
  rooted : p.KnowsReal root
  -- the real subdirectories of what was listed are known, too
  closed : ∀ q ∈ p.done, ∀ n a, (n, Disk.Node.directory a) ∈ kept d ignored q →
    p.KnowsReal (n :: q)
  -- whatever was listed and has a real name was listed under it
  named : ∀ v ∈ p.made, ∀ names, RealWay d ignored root names v.work.path →
    v.work.name = joined names
  -- either no link was turned to yet, or nothing with a real name is left
  order :
    ((∀ w ∈ p.queues.real, RealNamed d ignored root w) ∧
      ∀ v ∈ p.made, RealNamed d ignored root v.work) ∨
    ∀ names q, RealWay d ignored root names q → q ∈ p.done

theorem realFirst_first : RealFirst d ignored root (.first root) where
  rooted := .inr ⟨_, List.mem_singleton.mpr rfl, rfl⟩
  closed q hq := by cases hq
  named v hv := by cases hv
  order := by
    refine .inl ⟨fun w hw => ?_, fun v hv => by cases hv⟩
    rw [List.mem_singleton.mp hw]
    exact ⟨[], .start, rfl⟩

/-- Links are turned to only when no real directory waits. -/
theorem next?_cases {p rest : Queues} {w : Work} (h : p.next? = some (w, rest)) :
    p.real = w :: rest.real ∨ p.real = [] := by
  obtain ⟨_ | ⟨u, real⟩, _ | ⟨v, linked⟩⟩ := p <;> cases h
  · exact .inr rfl
  · exact .inl rfl
  · exact .inl rfl

theorem mem_real_of_next? {p rest : Queues} {w v : Work} (h : p.next? = some (w, rest))
    (hv : v ∈ p.real) : v = w ∨ v ∈ rest.real := by
  rcases next?_cases h with hr | hr
  · rw [hr] at hv
    exact List.mem_cons.mp hv
  · rw [hr] at hv
    cases hv

/-- Once no real directory waits, every directory with a real name has been listed. -/
theorem RealFirst.all_done {p : Progress} (hp : RealFirst d ignored root p)
    (hn : p.queues.real = []) {names : List Disk.Name} {q : Disk.Path}
    (h : RealWay d ignored root names q) : q ∈ p.done := by
  have hdone : ∀ path, p.KnowsReal path → path ∈ p.done := by
    intro path hx
    rcases hx with hk | ⟨w, hw, -⟩
    · exact hk
    · rw [hn] at hw
      cases hw
  induction h with
  | start => exact hdone _ hp.rooted
  | down _ entry ih => exact hdone _ (hp.closed _ ih _ _ entry)

theorem Turn.knowsReal {p q : Progress} (h : Turn d ignored p q) {path : Disk.Path}
    (hk : p.KnowsReal path) : q.KnowsReal path := by
  cases h with
  | pass next old =>
    rcases hk with hk | ⟨v, hv, rfl⟩
    · exact .inl hk
    · rcases mem_real_of_next? next hv with rfl | hv
      · exact .inl old
      · exact .inr ⟨v, hv, rfl⟩
  | visit next new listed =>
    rcases hk with hk | ⟨v, hv, rfl⟩
    · exact .inl (List.mem_cons_of_mem _ hk)
    · rcases mem_real_of_next? next hv with rfl | hv
      · exact .inl List.mem_cons_self
      · exact .inr ⟨v, List.mem_append_left _ hv, rfl⟩

theorem RealNamed.child (hd : d.Legible) {w : Work} (hw : RealNamed d ignored root w)
    {n : Disk.Name} {a : Disk.Access} (h : (n, Disk.Node.directory a) ∈ kept d ignored w.path) :
    RealNamed d ignored root ⟨n :: w.path, childName w.name n.text⟩ := by
  obtain ⟨names, hway, hname⟩ := hw
  refine ⟨names ++ [n], hway.down h, ?_⟩
  rw [joined_concat (hway.isText hd), ← hname]

/-- What is turned to next has its real name, or no directory with a real name is left to list. -/
theorem RealFirst.next_named {p : Progress} (hp : RealFirst d ignored root p) {w : Work}
    {rest : Queues} (next : p.queues.next? = some (w, rest)) :
    (RealNamed d ignored root w ∧ (∀ v ∈ rest.real, RealNamed d ignored root v) ∧
        ∀ v ∈ p.made, RealNamed d ignored root v.work) ∨
      ∀ names path, RealWay d ignored root names path → path ∈ p.done := by
  rcases hp.order with ⟨hreal, hmade⟩ | hall
  · rcases next?_cases next with hr | hr
    · rw [hr] at hreal
      exact .inl ⟨hreal w List.mem_cons_self, fun v hv => hreal v (List.mem_cons_of_mem _ hv),
        hmade⟩
    · exact .inr fun names path hway => hp.all_done hr hway
  · exact .inr hall

theorem RealFirst.turn (hd : d.Legible) {p q : Progress} (h : Turn d ignored p q)
    (hc : Covers d ignored root p) (hp : RealFirst d ignored root p) :
    RealFirst d ignored root q := by
  have hknows : ∀ path, p.KnowsReal path → q.KnowsReal path := fun _ hk => h.knowsReal hk
  cases h with
  | @pass w rest next old =>
    constructor
    case rooted => exact hknows _ hp.rooted
    case closed => exact fun path hq n a he => hknows _ (hp.closed path hq n a he)
    case named => exact hp.named
    case order =>
      rcases hp.next_named next with ⟨-, hrest, hmade⟩ | hall
      · exact .inl ⟨hrest, hmade⟩
      · exact .inr hall
  | @visit w rest found next new listed =>
    have hw : w ∈ p.waiting := (mem_waiting next).mpr (.inl rfl)
    have hfound : found = holds d ignored w := (list_spec (hc.stands w hw) listed).1
    constructor
    case rooted => exact hknows _ hp.rooted
    case closed =>
      intro path hq n a he
      rcases List.mem_cons.mp hq with rfl | hq
      · refine .inr ⟨⟨n :: w.path, childName w.name n.text⟩, List.mem_append_right _ ?_, rfl⟩
        rw [hfound]
        exact mem_real_holds.mpr ⟨n, a, he, rfl⟩
      · exact hknows _ (hp.closed path hq n a he)
    case named =>
      intro v hv names hway
      rcases List.mem_cons.mp hv with rfl | hv
      · rcases hp.next_named next with ⟨⟨names', hway', hname⟩, -⟩ | hall
        · rw [hway.names_eq hway']
          exact hname
        · exact absurd (hall names w.path hway) new
      · exact hp.named v hv names hway
    case order =>
      rcases hp.next_named next with ⟨hreal, hrest, hmade⟩ | hall
      · refine .inl ⟨fun v hv => ?_, fun v hv => ?_⟩
        · rcases List.mem_append.mp hv with hv | hv
          · exact hrest v hv
          · rw [hfound] at hv
            obtain ⟨n, a, he, rfl⟩ := mem_real_holds.mp hv
            exact hreal.child hd he
        · rcases List.mem_cons.mp hv with rfl | hv
          · exact hreal
          · exact hmade v hv
      · exact .inr fun names path hway => List.mem_cons_of_mem _ (hall names path hway)

/-! ## The report -/

/-- What a scan of a legible disk has come to when it succeeds. -/
theorem exists_faithful_of_visits (hd : d.Legible) {s : Scan} {visits : List Visit}
    (h : s.visits d = .ok visits) :
    ∃ root last, s.start d = .ok root ∧ last.waiting = [] ∧ visits = last.made.reverse ∧
      Covers d s.ignored root last ∧ Faithful d root last ∧ RealFirst d s.ignored root last := by
  obtain ⟨root, last, hs, hturns, hn, hv⟩ := exists_turns_of_visits h
  have hfirst : Covers d s.ignored root (.first root) := covers_first (stands_of_start hs)
  have hstep : ∀ {p q : Progress}, Turn d s.ignored p q →
      Covers d s.ignored root p ∧ Faithful d root p ∧ RealFirst d s.ignored root p →
      Covers d s.ignored root q ∧ Faithful d root q ∧ RealFirst d s.ignored root q := by
    intro p q hturn hp
    exact ⟨hp.1.turn hturn, hp.2.1.turn hd hturn hp.1, hp.2.2.turn hd hturn hp.1⟩
  exact ⟨root, last, hs, hn, hv,
    hturns.keeps hstep ⟨hfirst, faithful_first, realFirst_first⟩⟩

theorem nodup_names {root : Disk.Path} {visits : List Visit}
    (hd : (visits.map (·.work.path)).Nodup) (hn : ∀ v ∈ visits, Named d root v.work) :
    (visits.map (·.work.name)).Nodup := by
  refine List.Nodup.map_on (fun v hv w hw hname => ?_) (List.Nodup.of_map _ hd)
  exact List.inj_on_of_nodup_map hd hv hw ((hn v hv).path_eq (hn w hw) hname)

/-- With names that differ the report has a record for each visit. -/
theorem mem_ofList_listing {visits : List Visit} (hd : (visits.map (·.work.name)).Nodup)
    {l : Listing} :
    l ∈ (SortedBy.ofList (visits.map Visit.listing) : Listings) ↔
      ∃ v ∈ visits, v.listing = l := by
  have hkeys : ((visits.map Visit.listing).map Listing.name).Nodup := by
    rw [List.map_map]
    exact hd
  rw [SortedBy.mem_ofList_of_nodup hkeys, List.mem_map]

theorem nodup_names_of_visits (hd : d.Legible) {s : Scan} {visits : List Visit}
    (h : s.visits d = .ok visits) : (visits.map (·.work.name)).Nodup := by
  obtain ⟨root, last, -, -, rfl, hcovers, hfaithful, -⟩ := exists_faithful_of_visits hd h
  rw [List.map_reverse]
  exact List.nodup_reverse.mpr (nodup_names hcovers.once hfaithful.made)

/-- A scan of a legible disk reports a true record for each directory that it listed. -/
theorem listings_of_visits (hd : d.Legible) {s : Scan} {visits : List Visit}
    (h : s.visits d = .ok visits) :
    (∀ l, l ∈ (SortedBy.ofList (visits.map Visit.listing) : Listings) ↔
      ∃ v ∈ visits, v.listing = l) ∧
      ∀ v ∈ visits, Records d s.ignored v.listing v.work.path := by
  constructor
  · intro l
    exact mem_ofList_listing (nodup_names_of_visits hd h)
  · intro v hv
    obtain ⟨root, -, hexhausts⟩ := exists_exhausts_of_visits h
    exact records_listing (hexhausts.found hv)

/-- Each name that a scan of a legible disk reports leads to the directory of its record, no two
directories share a name, and a directory that is reached through real entries is reported under
their names. -/
theorem run_names {d : Disk} (hd : d.Legible) {s : Scan} {ls : Listings} (h : s.run d = .ok ls) :
    ∃ root visits, s.start d = .ok root ∧ s.visits d = .ok visits ∧
      (∀ l, l ∈ ls ↔ ∃ v ∈ visits, v.listing = l) ∧
      (∀ v ∈ visits, Records d s.ignored v.listing v.work.path ∧
        (v.work.name = "." → v.work.path = root) ∧
        (v.work.name ≠ "." → d.follow root v.work.name = .ok v.work.path)) ∧
      (visits.map (·.work.name)).Nodup ∧
      ∀ names p, RealWay d s.ignored root names p →
        (⟨p, joined names⟩ : Work) ∈ visits.map (·.work) := by
  obtain ⟨visits, hvisits, rfl⟩ := run_eq_ok_iff.mp h
  obtain ⟨root, last, hs, hn, rfl, hcovers, hfaithful, hreal⟩ :=
    exists_faithful_of_visits hd hvisits
  obtain ⟨hlistings, hrecords⟩ := listings_of_visits hd hvisits
  have hnodup := nodup_names_of_visits hd hvisits
  refine ⟨root, _, hs, hvisits, hlistings, fun v hv => ?_, hnodup, ?_⟩
  · have hv' : v ∈ last.made := List.mem_reverse.mp hv
    refine ⟨hrecords v hv, fun hname => ?_, fun hname => ?_⟩
    · rcases hfaithful.made v hv' with ⟨-, hpath⟩ | ⟨hne, -⟩
      · exact hpath
      · exact absurd hname hne
    · rcases hfaithful.made v hv' with ⟨hroot, -⟩ | ⟨-, hfollow⟩
      · exact absurd hroot hname
      · exact hfollow
  · intro names p hway
    have hqueue : last.queues.real = [] := (List.append_eq_nil_iff.mp hn).1
    obtain ⟨v, hv, rfl⟩ := List.mem_map.mp (hreal.all_done hqueue hway)
    rw [← hreal.named v hv names hway]
    exact List.mem_map.mpr ⟨v, List.mem_reverse.mpr hv, rfl⟩

theorem legible_tangled : tangled.Legible := by
  have hnames : ∀ entry ∈ tangled.nodes.toList, ∀ n ∈ entry.1,
      n.bytes = Utf8.write n.text := by
    have hall : (tangled.nodes.toList.all fun entry =>
        entry.1.all fun n => n.bytes == Utf8.write n.text) = true := by cbv
    intro entry he n hn
    have hentry := List.all_eq_true.mp hall entry he
    exact beq_iff_eq.mp (List.all_eq_true.mp hentry n hn)
  exact Disk.legible_of_nodes fun entry he n hn => ⟨_, hnames entry he n hn⟩

/-- The directory that a shorter link leads to has its real name in the report. -/
theorem run_names_tangled :
    ∃ ls, tangled.Legible ∧ (⟨"/", ∅⟩ : Scan).run tangled = .ok ls ∧
      ∃ root visits, (⟨"/", ∅⟩ : Scan).start tangled = .ok root ∧
        (⟨"/", ∅⟩ : Scan).visits tangled = .ok visits ∧
        (visits.map (·.work.name)).Nodup ∧
        ∀ names p, RealWay tangled ∅ root names p →
          (⟨p, joined names⟩ : Work) ∈ visits.map (·.work) := by
  obtain ⟨root, visits, hs, hv, -, -, hd, hreal⟩ := run_names legible_tangled run_tangled
  exact ⟨_, legible_tangled, run_tangled, root, visits, hs, hv, hd, hreal⟩

end Scan

end LicenseAudit
