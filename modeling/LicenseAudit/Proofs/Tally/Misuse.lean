import Mathlib.Data.List.DropRight
import LicenseAudit.Descriptor.Stops
import LicenseAudit.Proofs.Tally.DeclaredNames
import LicenseAudit.Proofs.Tally.SourceLinks
import LicenseAudit.Review

/-!
# Tallies that are misused

A tally can be taken from any node of a descriptor on, and of one node after the other. What it is
in comes with the stops, so a resource may come too early: before any section (`Outside`), or for
the tally of sources also before any grant of the last one (`Unlicensed`). The tally then stops
there. What the two have in common is a `Watch`: as long as every resource came in its place the
tally knows from the stops so far whether the next one does. So it has stopped exactly if some
resource came out of place, and at the first that did (`Watch.misplaced_iff`).

A walk over sections, or over whole descriptors, never gets there, whatever the tally was taken of
before.
-/

set_option autoImplicit false

namespace LicenseAudit

/-! ## Out of place -/

/-- Every resource comes in its place; `Out` says of the stops before one that it does not. -/
def InPlace (Out : List Stop → Prop) (l : List Stop) : Prop :=
  ∀ before r after, l = before ++ .resource r :: after → ¬Out before

/-- The first resource that comes out of place. -/
def FirstStray (Out : List Stop → Prop) (l : List Stop) (r : Resource) : Prop :=
  ∃ before after, l = before ++ .resource r :: after ∧ Out before ∧ InPlace Out before

section Strays

variable {Out : List Stop → Prop} {l l' : List Stop} {stop : Stop} {r r' : Resource}

theorem inPlace_nil : InPlace Out [] := by
  intro before r after h
  simp at h

theorem inPlace_snoc :
    InPlace Out (l ++ [stop]) ↔ InPlace Out l ∧ ∀ r, stop = .resource r → ¬Out l := by
  constructor
  · intro h
    constructor
    · rintro before r after rfl
      exact h before r (after ++ [stop]) (by simp)
    · rintro r rfl
      exact h l r [] rfl
  · rintro ⟨hl, hstop⟩ before r after heq
    rcases List.eq_nil_or_concat after with rfl | ⟨after, stop', rfl⟩
    · obtain ⟨rfl, hlast⟩ := List.append_inj' heq rfl
      exact hstop r (List.singleton_inj.mp hlast)
    · rw [List.concat_eq_append, ← List.cons_append, ← List.append_assoc] at heq
      exact hl before r after (List.append_inj' heq rfl).1

theorem FirstStray.append (h : FirstStray Out l r) (l' : List Stop) :
    FirstStray Out (l ++ l') r := by
  obtain ⟨before, after, rfl, hout, hin⟩ := h
  exact ⟨before, after ++ l', by simp, hout, hin⟩

theorem FirstStray.not_inPlace (h : FirstStray Out l r) : ¬InPlace Out l := by
  obtain ⟨before, after, rfl, hout, -⟩ := h
  exact fun hin => hin before r after rfl hout

theorem FirstStray.unique (h : FirstStray Out l r) (h' : FirstStray Out l r') : r = r' := by
  obtain ⟨before, after, rfl, hout, hin⟩ := h
  obtain ⟨before', after', heq, hout', hin'⟩ := h'
  -- neither of the two can come before the other
  rcases List.append_eq_append_iff.mp heq with
    ⟨between, hbefore, hafter⟩ | ⟨between, hbefore, hafter⟩
  · cases between with
    | nil => exact Stop.resource.inj (List.cons.inj hafter).1
    | cons stop between =>
      obtain ⟨rfl, -⟩ := List.cons.inj hafter
      exact absurd hout (hin' before r between hbefore)
  · cases between with
    | nil => exact (Stop.resource.inj (List.cons.inj hafter).1).symm
    | cons stop between =>
      obtain ⟨rfl, -⟩ := List.cons.inj hafter
      exact absurd hout' (hin before' r' between hbefore)

end Strays

/-! ## Watching for the first -/

/-- A tally that stops at a resource out of place. Up to there it knows something of the stops
before, and from this whether a resource is out of place. -/
structure Watch {σ : Type} (Out : List Stop → Prop) (visit : σ → Stop → σ)
    (misplaced : σ → Option Resource) (Knows : List Stop → σ → Prop) : Prop where
  stopped : ∀ {s r} stop, misplaced s = some r → visit s stop = s
  placed : ∀ {l s}, Knows l s → misplaced s = none
  stray : ∀ {l s r}, Knows l s → Out l → misplaced (visit s (.resource r)) = some r
  next : ∀ {l s stop}, Knows l s → (∀ r, stop = .resource r → ¬Out l) →
    Knows (l ++ [stop]) (visit s stop)

namespace Watch

variable {σ : Type} {Out : List Stop → Prop} {visit : σ → Stop → σ}
  {misplaced : σ → Option Resource} {Knows : List Stop → σ → Prop} {s : σ} {r : Resource}

theorem run (w : Watch Out visit misplaced Knows) (hs : Knows [] s) (l : List Stop) :
    (∃ r, misplaced (l.foldl visit s) = some r ∧ FirstStray Out l r) ∨
      Knows l (l.foldl visit s) ∧ InPlace Out l := by
  induction l using List.reverseRecOn with
  | nil => exact .inr ⟨hs, inPlace_nil⟩
  | append_singleton l stop ih =>
    rw [List.foldl_concat]
    rcases ih with ⟨r, hr, hfirst⟩ | ⟨hknows, hin⟩
    · rw [w.stopped stop hr]
      exact .inl ⟨r, hr, hfirst.append [stop]⟩
    · by_cases hstop : ∀ r, stop = .resource r → ¬Out l
      · exact .inr ⟨w.next hknows hstop, inPlace_snoc.mpr ⟨hin, hstop⟩⟩
      · push Not at hstop
        obtain ⟨r, rfl, hout⟩ := hstop
        exact .inl ⟨r, w.stray hknows hout, l, [], rfl, hout, hin⟩

theorem misplaced_iff (w : Watch Out visit misplaced Knows) (hs : Knows [] s) {l : List Stop} :
    misplaced (l.foldl visit s) = some r ↔ FirstStray Out l r := by
  rcases w.run hs l with ⟨r', hr', hfirst⟩ | ⟨hknows, hin⟩
  · rw [hr', Option.some.injEq]
    constructor
    · rintro rfl
      exact hfirst
    · exact hfirst.unique
  · rw [w.placed hknows]
    simp only [reduceCtorEq, false_iff]
    exact fun hfirst => hfirst.not_inPlace hin

theorem isSome_misplaced_iff (w : Watch Out visit misplaced Knows) (hs : Knows [] s)
    {l : List Stop} : (misplaced (l.foldl visit s)).isSome = true ↔
      ∃ before r after, l = before ++ .resource r :: after ∧ Out before := by
  rcases w.run hs l with ⟨r, hr, before, after, heq, hout, -⟩ | ⟨hknows, hin⟩
  · simp only [hr, Option.isSome_some, true_iff]
    exact ⟨before, r, after, heq, hout⟩
  · rw [w.placed hknows]
    simp only [Option.isSome_none, Bool.false_eq_true, false_iff]
    rintro ⟨before, r, after, heq, hout⟩
    exact hin before r after heq hout

end Watch

/-! ## What the tallies are in -/

def Stop.isDirectory : Stop → Bool
  | .directory _ => true
  | _ => false

/-- The stops after the last section; all of them if there is none. -/
def sinceDirectory (l : List Stop) : List Stop := l.rtakeWhile fun stop => !stop.isDirectory

/-- No section has come yet. -/
def Outside (l : List Stop) : Prop := ∀ c, .directory c ∉ l

/-- No section has come yet, or no grant since the last one. -/
def Unlicensed (l : List Stop) : Prop := Outside l ∨ ∀ g, .grant g ∉ sinceDirectory l

theorem outside_snoc {l : List Stop} {stop : Stop} :
    Outside (l ++ [stop]) ↔ Outside l ∧ ∀ c, stop ≠ .directory c := by
  simp only [Outside, List.mem_append, List.mem_singleton, not_or, forall_and, ne_eq, eq_comm]

theorem sinceDirectory_snoc (l : List Stop) (stop : Stop) :
    sinceDirectory (l ++ [stop]) =
      if stop.isDirectory then [] else sinceDirectory l ++ [stop] := by
  rw [sinceDirectory, List.rtakeWhile_concat]
  cases stop.isDirectory <;> rfl

namespace DeclaredNames

/-- Nothing was misplaced, and the tally is in a section if one has come. -/
def Knows (l : List Stop) (t : DeclaredNames) : Prop :=
  t.misplaced = none ∧ (t.directory = none ↔ Outside l)

theorem knows_start : Knows [] start := ⟨rfl, by simp [start, Outside]⟩

theorem watch : Watch Outside walker.visit misplaced Knows where
  stopped stop h := by simp only [walker, h]
  placed h := h.1
  stray h hout := by simp only [walker, h.1, h.2.mpr hout]
  next {l t stop} h hstop := by
    obtain ⟨hplaced, hdirectory⟩ := h
    cases stop with
    | directory c => simp [Knows, walker, hplaced, outside_snoc]
    | grant g => simpa [Knows, walker, hplaced, outside_snoc] using hdirectory
    | holding h => simpa [Knows, walker, hplaced, outside_snoc] using hdirectory
    | resource r =>
      obtain ⟨directory, hd⟩ := Option.ne_none_iff_exists'.mp (mt hdirectory.mp (hstop r rfl))
      have hvisit : walker.visit t (.resource r) = t.declare directory r.name := by
        simp only [walker, hplaced, hd]
      rw [hvisit, Knows, misplaced_declare, directory_declare, outside_snoc]
      simpa [hplaced] using hdirectory

end DeclaredNames

namespace SourceLinks

/-- Nothing was misplaced, and the tally is in a section, and under a license, if one has come. -/
def Knows (l : List Stop) (t : SourceLinks) : Prop :=
  t.misplaced = none ∧ (t.directory = none ↔ Outside l) ∧
    (t.license = none ↔ ∀ g, .grant g ∉ sinceDirectory l)

theorem knows_start : Knows [] start :=
  ⟨rfl, by simp [start, Outside], by simp [start, sinceDirectory]⟩

theorem watch : Watch Unlicensed walker.visit misplaced Knows where
  stopped stop h := by simp only [walker, h]
  placed h := h.1
  stray {l t r} h hout := by
    obtain ⟨hplaced, hdirectory, hlicense⟩ := h
    rcases hout with hout | hout
    · simp only [walker, hplaced, hdirectory.mpr hout]
    · cases hd : t.directory <;> simp only [walker, hplaced, hd, hlicense.mpr hout]
  next {l t stop} h hstop := by
    obtain ⟨hplaced, hdirectory, hlicense⟩ := h
    cases stop with
    | directory c =>
      simp [Knows, walker, hplaced, outside_snoc, sinceDirectory_snoc, Stop.isDirectory]
    | grant g =>
      have hmet : .grant g ∈ sinceDirectory (l ++ [.grant g]) := by
        simp [sinceDirectory_snoc, Stop.isDirectory]
      have hsome : some g.license = none ↔ ∀ g', .grant g' ∉ sinceDirectory (l ++ [.grant g]) :=
        iff_of_false (Option.some_ne_none _) fun hnone => hnone g hmet
      simp only [Knows, walker, hplaced]
      exact ⟨trivial, by simpa [outside_snoc] using hdirectory, hsome⟩
    | holding h =>
      simpa [Knows, walker, hplaced, outside_snoc, sinceDirectory_snoc, Stop.isDirectory]
        using ⟨hdirectory, hlicense⟩
    | resource r =>
      have hin := hstop r rfl
      rw [Unlicensed, not_or] at hin
      obtain ⟨directory, hd⟩ := Option.ne_none_iff_exists'.mp (mt hdirectory.mp hin.1)
      obtain ⟨license, hl⟩ := Option.ne_none_iff_exists'.mp (mt hlicense.mp hin.2)
      have hvisit : walker.visit t (.resource r) = t.take directory license r := by
        simp only [walker, hplaced, hd, hl]
      obtain ⟨hd', hl', hplaced'⟩ := @context_take t directory license r
      rw [hvisit, Knows, hd', hl', hplaced', outside_snoc, sinceDirectory_snoc]
      simpa [hplaced, Stop.isDirectory] using ⟨hdirectory, hlicense⟩

end SourceLinks

/-! ## Taken of nodes -/

/-- Everything from a node on. -/
def Stop.stops : Stop → List Stop
  | .directory c => c.stops
  | .grant g => g.stops
  | .holding h => h.stops
  | .resource r => [.resource r]

/-- Everything from a node on but the public domain of sections. -/
def Stop.licensed : Stop → List Stop
  | .directory c => .directory c :: c.grants.flatMap Grant.stops
  | stop => stop.stops

theorem Stop.walk_eq_foldl_stops {σ : Type} {w : Walker σ} (hw : w.EntersAll) (stop : Stop)
    (s : σ) : stop.walk w s = stop.stops.foldl w.visit s := by
  cases stop with
  | directory c => exact c.walk_eq_foldl_stops hw s
  | grant g => exact g.walk_eq_foldl_stops hw s
  | holding h => exact h.walk_eq_foldl_stops hw s
  | resource r => rfl

/-- Walks from nodes on, in turn. -/
def walkNodes {σ : Type} (w : Walker σ) (nodes : List Stop) (s : σ) : σ :=
  nodes.foldl (fun s node => node.walk w s) s

/-- Walks over sections, and over whole descriptors, in turn. -/
def walkParts {σ : Type} (w : Walker σ) (parts : List (Section ⊕ Descriptor)) (s : σ) : σ :=
  parts.foldl (fun s part => part.elim (fun c => c.walk w s) fun d => d.walk w s) s

/-- What every section keeps, walks over sections and descriptors keep. -/
theorem keeps_walkParts {σ : Type} {w : Walker σ} {P : σ → Prop}
    (hsection : ∀ (c : Section) s, P s → P (c.walk w s)) (parts : List (Section ⊕ Descriptor))
    {s : σ} (hs : P s) : P (walkParts w parts s) := by
  have hsections : ∀ (cs : List Section) s, P s → P (cs.foldl (fun s c => c.walk w s) s) := by
    intro cs
    induction cs with
    | nil => exact fun _ h => h
    | cons c cs ih => exact fun s h => ih _ (hsection c s h)
  induction parts generalizing s with
  | nil => exact hs
  | cons part parts ih =>
    apply ih
    cases part with
    | inl c => exact hsection c s hs
    | inr d => exact hsections d.sections.toList s hs

namespace DeclaredNames

theorem walkNodes_eq (nodes : List Stop) :
    walkNodes walker nodes start = (nodes.flatMap Stop.stops).foldl walker.visit start :=
  foldl_walk_eq (Stop.walk_eq_foldl_stops fun _ _ => rfl) nodes start

theorem misuse?_walkNodes_iff {nodes : List Stop} {text : String} :
    (walkNodes walker nodes start).misuse? = some text ↔
      ∃ r, FirstStray Outside (nodes.flatMap Stop.stops) r ∧
        text = "resource '" ++ r.name ++ "' visited outside of any directory" := by
  rw [misuse?, Option.map_eq_some_iff, walkNodes_eq]
  simp only [watch.misplaced_iff knows_start, eq_comm]

theorem isSome_misuse?_walkNodes_iff {nodes : List Stop} :
    (walkNodes walker nodes start).misuse?.isSome = true ↔
      ∃ before r after, nodes.flatMap Stop.stops = before ++ .resource r :: after ∧
        Outside before := by
  rw [misuse?, Option.isSome_map, walkNodes_eq]
  exact watch.isSome_misplaced_iff knows_start

theorem misuse?_walkParts (parts : List (Section ⊕ Descriptor)) :
    (walkParts walker parts start).misuse? = none := by
  have hsection : ∀ (c : Section) t, misplaced t = none → (c.walk walker t).misplaced = none := by
    intro c t ht
    rw [walk_section c ht, misplaced_declareAll]
    exact ht
  have hstart : misplaced start = none := rfl
  rw [misuse?, keeps_walkParts hsection parts hstart, Option.map_none]

end DeclaredNames

namespace SourceLinks

/-- Only a section has a public domain; below one the tally enters every layer. -/
def entering : Walker SourceLinks := { walker with enters := fun _ _ => true }

theorem walk_eq_foldl_licensed (node : Stop) (t : SourceLinks) :
    node.walk walker t = node.licensed.foldl walker.visit t := by
  have hentering : entering.EntersAll := fun _ _ => rfl
  cases node with
  | directory c => exact foldl_walk_eq (Grant.walk_eq_foldl_stops hentering) c.grants _
  | grant g => exact g.walk_eq_foldl_stops hentering t
  | holding h => exact h.walk_eq_foldl_stops hentering t
  | resource r => rfl

theorem walkNodes_eq (nodes : List Stop) :
    walkNodes walker nodes start = (nodes.flatMap Stop.licensed).foldl walker.visit start :=
  foldl_walk_eq walk_eq_foldl_licensed nodes start

theorem misuse?_walkNodes_iff {nodes : List Stop} {text : String} :
    (walkNodes walker nodes start).misuse? = some text ↔
      ∃ r, FirstStray Unlicensed (nodes.flatMap Stop.licensed) r ∧
        text = "resource '" ++ r.name ++ "' visited before its directory and license" := by
  rw [misuse?, Option.map_eq_some_iff, walkNodes_eq]
  simp only [watch.misplaced_iff knows_start, eq_comm]

theorem isSome_misuse?_walkNodes_iff {nodes : List Stop} :
    (walkNodes walker nodes start).misuse?.isSome = true ↔
      ∃ before r after, nodes.flatMap Stop.licensed = before ++ .resource r :: after ∧
        Unlicensed before := by
  rw [misuse?, Option.isSome_map, walkNodes_eq]
  exact watch.isSome_misplaced_iff knows_start

theorem misuse?_walkParts (parts : List (Section ⊕ Descriptor)) :
    (walkParts walker parts start).misuse? = none := by
  have hsection : ∀ (c : Section) t, misplaced t = none → (c.walk walker t).misplaced = none :=
    fun c _ ht => (walk_section c ht).1
  have hstart : misplaced start = none := rfl
  rw [misuse?, keeps_walkParts hsection parts hstart, Option.map_none]

end SourceLinks

/-- The tallies stop at the first resource that is out of place, wherever they are taken, and name
it. Over sections and whole descriptors they never do, and so never in a review. -/
theorem misuse?_decides :
    (∀ nodes text, (walkNodes DeclaredNames.walker nodes .start).misuse? = some text ↔
      ∃ r, FirstStray Outside (nodes.flatMap Stop.stops) r ∧
        text = "resource '" ++ r.name ++ "' visited outside of any directory") ∧
    (∀ nodes, (walkNodes DeclaredNames.walker nodes .start).misuse?.isSome = true ↔
      ∃ before r after, nodes.flatMap Stop.stops = before ++ .resource r :: after ∧
        Outside before) ∧
    (∀ nodes text, (walkNodes SourceLinks.walker nodes .start).misuse? = some text ↔
      ∃ r, FirstStray Unlicensed (nodes.flatMap Stop.licensed) r ∧
        text = "resource '" ++ r.name ++ "' visited before its directory and license") ∧
    (∀ nodes, (walkNodes SourceLinks.walker nodes .start).misuse?.isSome = true ↔
      ∃ before r after, nodes.flatMap Stop.licensed = before ++ .resource r :: after ∧
        Unlicensed before) ∧
    (∀ parts, (walkParts DeclaredNames.walker parts .start).misuse? = none ∧
      (walkParts SourceLinks.walker parts .start).misuse? = none) ∧
    ∀ (d : Descriptor) name, (d.walk DeclaredNames.walker .start).misuse? = none ∧
      (d.walk SourceLinks.walker .start).misuse? = none ∧
      (Review.namesIn d name).misuse? = none ∧ (Review.sourcesIn d name).misuse? = none := by
  refine ⟨fun nodes text => DeclaredNames.misuse?_walkNodes_iff,
    fun nodes => DeclaredNames.isSome_misuse?_walkNodes_iff,
    fun nodes text => SourceLinks.misuse?_walkNodes_iff,
    fun nodes => SourceLinks.isSome_misuse?_walkNodes_iff,
    fun parts => ⟨DeclaredNames.misuse?_walkParts parts, SourceLinks.misuse?_walkParts parts⟩,
    fun d name => ⟨DeclaredNames.misuse?_walkParts [.inr d], SourceLinks.misuse?_walkParts [.inr d],
      ?_, ?_⟩⟩
  · rw [Review.namesIn, Descriptor.walkSection?]
    cases d.section? name with
    | none => rfl
    | some c => exact DeclaredNames.misuse?_walkParts [.inl c]
  · rw [Review.sourcesIn, Descriptor.walkSection?]
    cases d.section? name with
    | none => rfl
    | some c => exact SourceLinks.misuse?_walkParts [.inl c]

/-- A directory without content, and then a holding with a resource. -/
def strayed : List Stop :=
  [.directory ⟨"a", [], default⟩,
    .holding ⟨⟨"O", "Organisation", ""⟩, ⟨[⟨"s", none, none⟩], List.pairwise_singleton _ _⟩⟩]

/-- What a holding that is not below a grant has is in its place for one tally and not for the
other. -/
theorem misuse?_decides_strayed :
    ¬InPlace Unlicensed (strayed.flatMap Stop.licensed) ∧
      InPlace Outside (strayed.flatMap Stop.stops) := by
  obtain ⟨-, hnames, hsources, -⟩ := misuse?_decides
  constructor
  · have hmisused : (walkNodes SourceLinks.walker strayed .start).misuse? =
        some "resource 's' visited before its directory and license" := rfl
    obtain ⟨r, hfirst, -⟩ := (hsources strayed _).mp hmisused
    exact hfirst.not_inPlace
  · intro before r after heq hout
    have hmisused := (hnames strayed).mpr ⟨before, r, after, heq, hout⟩
    cases hmisused

end LicenseAudit
