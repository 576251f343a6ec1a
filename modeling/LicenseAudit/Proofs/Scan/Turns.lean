import Mathlib.Logic.Relation
import LicenseAudit.Scan.Search

/-!
# The turns of a scan

A scan is a loop. On each `Turn` it takes the next directory that waits, and either passes over it,
because it was listed before, or lists it and lets everything found there wait. This module ties
the search to its turns: `exists_turns` says that a search is a run of turns to an end, which is
either that nothing waits any more or that the next directory cannot be listed, and that its
answer is read off that end.

**No run of turns goes on for ever** (`wellFounded_turn`), whatever the links on the disk: listing
a directory leaves fewer to be listed, and passing over one leaves fewer waiting.

What holds at the start of a scan and is kept by each turn holds wherever the scan comes to
(`Turns.keeps`); the statements about what is scanned, and under which name, are proved in this
way.
-/

set_option autoImplicit false

namespace LicenseAudit

namespace Scan

/-- A scan on its way. -/
structure Progress where
  queues : Queues
  -- the visits so far, the last one first
  made : List Visit

namespace Progress

/-- The directories that were listed. -/
def done (p : Progress) : List Disk.Path := p.made.map (·.work.path)

/-- Everything that waits. -/
def waiting (p : Progress) : List Work := p.queues.real ++ p.queues.linked

/-- The start of a scan. -/
def first (root : Disk.Path) : Progress := ⟨⟨[⟨root, rootName⟩], []⟩, []⟩

end Progress

/-- One turn of the loop. -/
inductive Turn (d : Disk) (ignored : NameSet) : Progress → Progress → Prop
  /-- The next directory was listed before. -/
  | pass {p : Progress} {w : Work} {rest : Queues} (next : p.queues.next? = some (w, rest))
      (old : w.path ∈ p.done) : Turn d ignored p ⟨rest, p.made⟩
  /-- The next directory is listed. -/
  | visit {p : Progress} {w : Work} {rest : Queues} {found : Found}
      (next : p.queues.next? = some (w, rest)) (new : w.path ∉ p.done)
      (listed : list d ignored w = .ok found) :
      Turn d ignored p ⟨rest.add found, ⟨w, found⟩ :: p.made⟩

/-- Any number of turns. -/
abbrev Turns (d : Disk) (ignored : NameSet) : Progress → Progress → Prop :=
  Relation.ReflTransGen (Turn d ignored)

/-- The loop is left, with an answer. -/
inductive Ends (d : Disk) (ignored : NameSet) (p : Progress) :
    Except Failure (List Visit) → Prop
  /-- Nothing waits any more. -/
  | finished (none : p.queues.next? = none) : Ends d ignored p (.ok p.made.reverse)
  /-- The next directory cannot be listed. -/
  | failed {w : Work} {rest : Queues} {failure : Failure}
      (next : p.queues.next? = some (w, rest)) (new : w.path ∉ p.done)
      (refused : list d ignored w = .error failure) : Ends d ignored p (.error failure)

variable {d : Disk} {ignored : NameSet}

/-! ## The loop comes to an end -/

/-- What each turn lowers. -/
def Progress.measure (d : Disk) (p : Progress) : Nat × Nat := (unlisted d p.done, p.queues.size)

theorem Turn.lowers {p q : Progress} (h : Turn d ignored p q) :
    Prod.Lex (· < ·) (· < ·) (q.measure d) (p.measure d) := by
  cases h with
  | pass next old => exact Prod.Lex.right _ (Queues.size_next? next)
  | visit next new listed =>
    exact Prod.Lex.left _ _ (unlisted_cons (isDirectory_of_list listed) new)

/-- No run of turns goes on for ever. -/
theorem wellFounded_turn : WellFounded fun later earlier => Turn d ignored earlier later := by
  have hlex : WellFounded (Prod.Lex (· < · : Nat → Nat → Prop) (· < · : Nat → Nat → Prop)) :=
    WellFoundedRelation.wf
  exact Subrelation.wf (fun h => Turn.lowers h) (InvImage.wf (Progress.measure d) hlex)

/-! ## The search as a run of turns -/

/-- The search is a run of turns to an end, and its answer is that of the end. -/
theorem exists_turns (queues : Queues) (made : List Visit) :
    ∃ last, Turns d ignored ⟨queues, made⟩ last ∧
      Ends d ignored last
        ((search d ignored queues (made.map (·.work.path))).map (made.reverse ++ ·)) := by
  generalize hdone : made.map (·.work.path) = done
  fun_induction search d ignored queues done generalizing made with
  | case1 queues done next =>
    refine ⟨⟨queues, made⟩, .refl, ?_⟩
    simp only [Except.map, List.append_nil]
    exact .finished next
  | case2 queues done work rest next old ih =>
    obtain ⟨last, hturns, hends⟩ := ih made hdone
    subst hdone
    exact ⟨last, .head (.pass next old) hturns, hends⟩
  | case3 queues done work rest next new failure refused =>
    subst hdone
    exact ⟨⟨queues, made⟩, .refl, .failed next new refused⟩
  | case4 queues done work rest next new found listed ih =>
    obtain ⟨last, hturns, hends⟩ := ih (⟨work, found⟩ :: made) (by rw [← hdone, List.map_cons])
    subst hdone
    refine ⟨last, .head (.visit next new listed) hturns, ?_⟩
    cases hs : search d ignored (rest.add found) (work.path :: made.map (·.work.path)) with
    | error failure =>
      rw [hs] at hends
      exact hends
    | ok visits =>
      rw [hs] at hends
      simpa [Except.map, bind, Except.bind, pure, Except.pure] using hends

/-- What the turns keep. -/
theorem Turns.keeps {P : Progress → Prop} (step : ∀ {p q}, Turn d ignored p q → P p → P q)
    {p q : Progress} (h : Turns d ignored p q) (hp : P p) : P q := by
  induction h with
  | refl => exact hp
  | tail _ hturn ih => exact step hturn ih

theorem waiting_eq_nil {p : Progress} (h : p.queues.next? = none) : p.waiting = [] := by
  obtain ⟨⟨_ | ⟨w, real⟩, _ | ⟨v, linked⟩⟩, made⟩ := p
  · rfl
  all_goals cases h

theorem mem_waiting {p : Progress} {w v : Work} {rest : Queues}
    (h : p.queues.next? = some (w, rest)) :
    v ∈ p.waiting ↔ v = w ∨ v ∈ rest.real ++ rest.linked := by
  obtain ⟨⟨_ | ⟨u, real⟩, _ | ⟨u', linked⟩⟩, made⟩ := p <;> cases h <;>
    simp [Progress.waiting]

/-! ## Whole scans -/

theorem run_eq_ok_iff {s : Scan} {ls : Listings} :
    s.run d = .ok ls ↔
      ∃ visits, s.visits d = .ok visits ∧ ls = .ofList (visits.map Visit.listing) := by
  unfold run
  cases s.visits d with
  | error fault => simp [bind, Except.bind]
  | ok visits => simp [bind, Except.bind, pure, Except.pure, eq_comm]

theorem visits_of_start_error {s : Scan} {fault : Fault} (h : s.start d = .error fault) :
    s.visits d = .error fault := by
  simp [visits, h, bind, Except.bind]

theorem visits_of_start {s : Scan} {root : Disk.Path} (h : s.start d = .ok root) :
    s.visits d =
      (search d s.ignored ⟨[⟨root, rootName⟩], []⟩ []).mapError Failure.fault := by
  simp only [visits, h, bind, Except.bind]
  cases search d s.ignored ⟨[⟨root, rootName⟩], []⟩ [] <;> rfl

/-- A scan that finds its root turns until it is left, and answers what it is left with. -/
theorem exists_turns_of_start {s : Scan} {root : Disk.Path} (h : s.start d = .ok root) :
    ∃ last answer, Turns d s.ignored (.first root) last ∧ Ends d s.ignored last answer ∧
      s.visits d = answer.mapError Failure.fault := by
  obtain ⟨last, hturns, hends⟩ : ∃ last, Turns d s.ignored (.first root) last ∧
      Ends d s.ignored last
        ((search d s.ignored ⟨[⟨root, rootName⟩], []⟩ []).map ([] ++ ·)) := exists_turns _ []
  refine ⟨last, _, hturns, hends, ?_⟩
  rw [visits_of_start h]
  cases search d s.ignored ⟨[⟨root, rootName⟩], []⟩ [] <;> rfl

/-- A scan that succeeds has made its visits when nothing waits any more. -/
theorem exists_turns_of_visits {s : Scan} {visits : List Visit} (h : s.visits d = .ok visits) :
    ∃ root last, s.start d = .ok root ∧ Turns d s.ignored (.first root) last ∧
      last.waiting = [] ∧ visits = last.made.reverse := by
  cases hs : s.start d with
  | error fault =>
    rw [visits_of_start_error hs] at h
    cases h
  | ok root =>
    obtain ⟨last, answer, hturns, hends, hanswer⟩ := exists_turns_of_start hs
    rw [h] at hanswer
    cases hends with
    | finished next =>
      cases hanswer
      exact ⟨root, last, rfl, hturns, waiting_eq_nil next, rfl⟩
    | failed next new refused => cases hanswer

end Scan

end LicenseAudit
