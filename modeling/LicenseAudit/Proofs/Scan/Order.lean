import LicenseAudit.Proofs.Scan.Coverage

/-!
# The order of a scan

Next comes the first directory found as such that was not listed yet, and where there is none the
first that a link leads to: `upNext?` says so without any queue, by looking through everything that
the directories listed so far hold, the earliest first and each in the order of its entries. The
queues of a scan are what is left of that. Whatever was taken from them has been listed (`Taken`),
so the directory that a scan turns to is the one that is up next (`Queued.upNext?_eq`), and it lists
in this order throughout (`Queued.turn`).
-/

set_option autoImplicit false

namespace LicenseAudit

namespace Scan

/-! ## What is up next -/

section Order

variable (d : Disk) (ignored : NameSet) (root : Disk.Path)

/-- Everything there is to list once these directories were listed: what was found as such, and then
what links lead to. -/
def offered (ws : List Work) : List Work :=
  (⟨root, rootName⟩ :: ws.flatMap fun w => (holds d ignored w).real) ++
    ws.flatMap fun w => (holds d ignored w).linked

/-- The directory to list after these. -/
def upNext? (ws : List Work) : Option Work :=
  (offered d ignored root ws).find? fun w => !(ws.map Work.path).contains w.path

/-- The directories are in the order in which a scan lists them. -/
inductive InOrder : List Work → Prop
  | start : InOrder []
  | next {ws : List Work} {w : Work} (before : InOrder ws)
      (up : upNext? d ignored root ws = some w) : InOrder (ws ++ [w])

end Order

variable {d : Disk} {ignored : NameSet} {root : Disk.Path}

/-! ## What was taken from a queue -/

/-- The queue is what is left of a list, and what was taken from it has been listed. -/
def Taken (done : List Disk.Path) (all queue : List Work) : Prop :=
  ∃ taken, all = taken ++ queue ∧ ∀ w ∈ taken, w.path ∈ done

variable {done done' : List Disk.Path} {all queue : List Work} {w : Work}

theorem Taken.refl (queue : List Work) : Taken done queue queue :=
  ⟨[], rfl, fun _ hw => by cases hw⟩

theorem Taken.head (h : Taken done all (w :: queue)) (hw : w.path ∈ done) :
    Taken done all queue := by
  obtain ⟨taken, rfl, hdone⟩ := h
  refine ⟨taken ++ [w], by simp, fun v hv => ?_⟩
  rcases List.mem_append.mp hv with hv | hv
  · exact hdone v hv
  · rwa [List.mem_singleton.mp hv]

theorem Taken.mono (h : Taken done all queue) (hsub : ∀ p ∈ done, p ∈ done') :
    Taken done' all queue := by
  obtain ⟨taken, hall, hdone⟩ := h
  exact ⟨taken, hall, fun v hv => hsub _ (hdone v hv)⟩

theorem Taken.append (h : Taken done all queue) (more : List Work) :
    Taken done (all ++ more) (queue ++ more) := by
  obtain ⟨taken, rfl, hdone⟩ := h
  exact ⟨taken, List.append_assoc _ _ _, hdone⟩

theorem Taken.find?_eq (h : Taken done all queue) :
    (all.find? fun w => !done.contains w.path) = queue.find? fun w => !done.contains w.path := by
  obtain ⟨taken, rfl, hdone⟩ := h
  have hnone : (taken.find? fun w => !done.contains w.path) = none := by
    simpa using hdone
  rw [List.find?_append, hnone, Option.none_or]

/-! ## The queues of a scan -/

/-- The directories listed so far, the first one first. -/
def Progress.listed (p : Progress) : List Work := p.made.reverse.map (·.work)

theorem Progress.contains_listed {p : Progress} {q : Disk.Path} :
    (p.listed.map Work.path).contains q = p.done.contains q := by
  rw [Bool.eq_iff_iff]
  simp [Progress.listed, Progress.done]

/-- The scan has kept to the order so far, and its queues are what is left of what there is to
list. -/
structure Queued (d : Disk) (ignored : NameSet) (root : Disk.Path) (p : Progress) : Prop where
  order : InOrder d ignored root p.listed
  real : Taken p.done
    (⟨root, rootName⟩ :: p.listed.flatMap fun w => (holds d ignored w).real) p.queues.real
  linked : Taken p.done (p.listed.flatMap fun w => (holds d ignored w).linked) p.queues.linked

theorem queued_first : Queued d ignored root (.first root) := ⟨.start, .refl _, .refl _⟩

theorem Queued.upNext?_waiting {p : Progress} (h : Queued d ignored root p) :
    upNext? d ignored root p.listed = p.waiting.find? fun w => !p.done.contains w.path := by
  simp only [upNext?, offered, Progress.contains_listed]
  rw [List.find?_append, h.real.find?_eq, h.linked.find?_eq, ← List.find?_append, Progress.waiting]

/-- What a scan turns to, and has not listed before, is up next. -/
theorem Queued.upNext?_eq {p : Progress} (h : Queued d ignored root p) {rest : Queues}
    (next : p.queues.next? = some (w, rest)) (new : w.path ∉ p.done) :
    upNext? d ignored root p.listed = some w := by
  have hhead : ∃ more, p.waiting = w :: more := by
    obtain ⟨⟨_ | ⟨v, real⟩, _ | ⟨u, linked⟩⟩, made⟩ := p <;> cases next
    · exact ⟨linked, rfl⟩
    · exact ⟨real ++ [], rfl⟩
    · exact ⟨real ++ u :: linked, rfl⟩
  obtain ⟨more, hwaiting⟩ := hhead
  rw [h.upNext?_waiting, hwaiting, List.find?_cons]
  simp [new]

theorem Queued.rest {p : Progress} (h : Queued d ignored root p) {rest : Queues}
    (next : p.queues.next? = some (w, rest)) (hsub : ∀ q ∈ p.done, q ∈ done)
    (hw : w.path ∈ done) :
    Taken done (⟨root, rootName⟩ :: p.listed.flatMap fun w => (holds d ignored w).real) rest.real ∧
      Taken done (p.listed.flatMap fun w => (holds d ignored w).linked) rest.linked := by
  have hreal := h.real.mono hsub
  have hlinked := h.linked.mono hsub
  obtain ⟨⟨_ | ⟨v, real⟩, _ | ⟨u, linked⟩⟩, made⟩ := p <;> cases next
  · exact ⟨hreal, hlinked.head hw⟩
  · exact ⟨hreal.head hw, hlinked⟩
  · exact ⟨hreal.head hw, hlinked⟩

theorem Queued.turn {p q : Progress} (h : Turn d ignored p q) (hc : Covers d ignored root p)
    (hp : Queued d ignored root p) : Queued d ignored root q := by
  cases h with
  | @pass w rest next old =>
    obtain ⟨hreal, hlinked⟩ := hp.rest next (fun _ hq => hq) old
    exact ⟨hp.order, hreal, hlinked⟩
  | @visit w rest found next new listed =>
    have hw : w ∈ p.waiting := (mem_waiting next).mpr (.inl rfl)
    obtain rfl := (list_spec (hc.stands w hw) listed).1
    have hlisted :
        Progress.listed ⟨rest.add (holds d ignored w), ⟨w, holds d ignored w⟩ :: p.made⟩ =
          p.listed ++ [w] := by
      simp [Progress.listed]
    obtain ⟨hreal, hlinked⟩ :=
      hp.rest next (fun _ hq => List.mem_cons_of_mem w.path hq) List.mem_cons_self
    refine ⟨?_, ?_, ?_⟩
    · rw [hlisted]
      exact hp.order.next (hp.upNext?_eq next new)
    · rw [hlisted, List.flatMap_append, List.flatMap_singleton, ← List.cons_append]
      exact hreal.append _
    · rw [hlisted, List.flatMap_append, List.flatMap_singleton]
      exact hlinked.append _

/-- A scan keeps to the order, however far it comes. -/
theorem queued_of_turns {p : Progress} (hroot : d.Stands root.tail)
    (h : Turns d ignored (.first root) p) : Queued d ignored root p := by
  have hstep : ∀ {p q : Progress}, Turn d ignored p q →
      Covers d ignored root p ∧ Queued d ignored root p →
      Covers d ignored root q ∧ Queued d ignored root q := by
    intro p q hturn hp
    exact ⟨hp.1.turn hturn, hp.2.turn hturn hp.1⟩
  exact (h.keeps hstep ⟨covers_first hroot, queued_first⟩).2

end Scan

end LicenseAudit
