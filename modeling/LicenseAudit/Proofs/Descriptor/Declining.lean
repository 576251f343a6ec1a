import LicenseAudit.Proofs.Descriptor.Traversal

/-!
# Walkers that decline holdings

What a walker answers may depend on what it saw, so which stops it is called at is written down
along with its state: `Section.trace` follows the walk, and a walker that takes notes ends up with
just this list (`foldl_walk_recording`).

**To decline holdings is to decline the ones below grants.** The holdings of the public domain have
a layer of their own, and a walker is called at them, and at their resources, although it declines
holdings throughout. Of sections and grants it is called at the same ones as if it entered holdings,
provided that what it saw of holdings has no say in whether it enters the grants.
-/

set_option autoImplicit false

namespace LicenseAudit

variable {σ α : Type}

/-! ## Where a walker is called -/

/-- The same walker, which notes where it is called. -/
def Walker.recording (w : Walker σ) : Walker (σ × List Stop) where
  enters p layer := w.enters p.1 layer
  visit p stop := (w.visit p.1 stop, p.2 ++ [stop])

/-- Where a walker is called over parts in turn. -/
def Walker.tracing (w : Walker σ) (trace : α → σ → List Stop) : List α → σ → List Stop
  | [], _ => []
  | a :: l, s => trace a s ++ w.tracing trace l ((trace a s).foldl w.visit s)

/-- Where a walker is called over a layer, if it enters it. -/
def Walker.layerTrace (w : Walker σ) (layer : Layer) (trace : α → σ → List Stop) (l : List α)
    (s : σ) : List Stop :=
  if w.enters s layer then w.tracing trace l s else []

def Resource.trace (r : Resource) (_ : σ) : List Stop := [.resource r]

def Holding.trace (w : Walker σ) (h : Holding) (s : σ) : List Stop :=
  .holding h :: w.layerTrace .resources Resource.trace h.resources.toList (w.visit s (.holding h))

def Grant.trace (w : Walker σ) (g : Grant) (s : σ) : List Stop :=
  .grant g :: w.layerTrace .holdings (Holding.trace w) g.holdings.toList (w.visit s (.grant g))

def Section.trace (w : Walker σ) (c : Section) (s : σ) : List Stop :=
  let s := w.visit s (.directory c)
  let behind := w.layerTrace .publicDomain (Holding.trace w) c.publicDomain.toList s
  .directory c ::
    (behind ++ w.layerTrace .grants (Grant.trace w) c.grants (behind.foldl w.visit s))

/-- Where a walker is called over sections in turn. -/
abbrev Walker.trace (w : Walker σ) : List Section → σ → List Stop := w.tracing (Section.trace w)

section Recording

variable {w : Walker σ} {walk : α → σ × List Stop → σ × List Stop} {trace : α → σ → List Stop}

/-- What is noted of parts is noted of all of them. -/
theorem foldl_recording
    (hwalk : ∀ a s t, walk a (s, t) = ((trace a s).foldl w.visit s, t ++ trace a s)) (l : List α)
    (s : σ) (t : List Stop) :
    l.foldl (fun p a => walk a p) (s, t) =
      ((w.tracing trace l s).foldl w.visit s, t ++ w.tracing trace l s) := by
  induction l generalizing s t with
  | nil => simp [Walker.tracing]
  | cons a l ih =>
    rw [List.foldl_cons, hwalk, ih, Walker.tracing, List.foldl_append, List.append_assoc]

theorem layer_recording
    (hwalk : ∀ a s t, walk a (s, t) = ((trace a s).foldl w.visit s, t ++ trace a s)) (layer : Layer)
    (l : List α) (s : σ) (t : List Stop) :
    (if w.recording.enters (s, t) layer then l.foldl (fun p a => walk a p) (s, t) else (s, t)) =
      ((w.layerTrace layer trace l s).foldl w.visit s, t ++ w.layerTrace layer trace l s) := by
  rw [Walker.layerTrace, Walker.recording]
  cases w.enters s layer with
  | false => simp
  | true => exact foldl_recording hwalk l s t

variable (w)

theorem Walker.recording_visit (s : σ) (t : List Stop) (stop : Stop) :
    w.recording.visit (s, t) stop = (w.visit s stop, t ++ [stop]) := rfl

theorem Holding.walk_recording (h : Holding) (s : σ) (t : List Stop) :
    h.walk w.recording (s, t) = ((h.trace w s).foldl w.visit s, t ++ h.trace w s) := by
  have hresources := @layer_recording _ _ w (fun r p => r.walk w.recording p) Resource.trace
    (fun _ _ _ => rfl) .resources h.resources.toList
  rw [Holding.walk, Walker.recording_visit, hresources]
  simp [Holding.trace]

theorem Grant.walk_recording (g : Grant) (s : σ) (t : List Stop) :
    g.walk w.recording (s, t) = ((g.trace w s).foldl w.visit s, t ++ g.trace w s) := by
  have hholdings := layer_recording (Holding.walk_recording w) .holdings g.holdings.toList
  rw [Grant.walk, Walker.recording_visit, hholdings]
  simp [Grant.trace]

theorem Section.walk_recording (c : Section) (s : σ) (t : List Stop) :
    c.walk w.recording (s, t) = ((c.trace w s).foldl w.visit s, t ++ c.trace w s) := by
  have hpublic := layer_recording (Holding.walk_recording w) .publicDomain c.publicDomain.toList
  have hgrants := layer_recording (Grant.walk_recording w) .grants c.grants
  rw [Section.walk, Walker.recording_visit, hpublic, hgrants]
  simp [Section.trace]

theorem foldl_walk_recording (cs : List Section) (s : σ) :
    cs.foldl (fun p c => c.walk w.recording p) (s, []) =
      ((w.trace cs s).foldl w.visit s, w.trace cs s) :=
  foldl_recording (Section.walk_recording w) cs s []

end Recording

/-! ## Declining holdings -/

/-- A section or a grant; holdings and resources are below these. -/
def Stop.isOuter : Stop → Bool
  | .directory _ | .grant _ => true
  | .holding _ | .resource _ => false

namespace Walker

variable {w : Walker σ} {trace : α → σ → List Stop}

theorem tracing_sublist {stops : α → List Stop} (h : ∀ a s, (trace a s).Sublist (stops a))
    (l : List α) (s : σ) : (w.tracing trace l s).Sublist (l.flatMap stops) := by
  induction l generalizing s with
  | nil => exact .slnil
  | cons a l ih => exact (h a s).append (ih _)

theorem layerTrace_sublist {stops : α → List Stop} (h : ∀ a s, (trace a s).Sublist (stops a))
    (layer : Layer) (l : List α) (s : σ) :
    (w.layerTrace layer trace l s).Sublist (l.flatMap stops) := by
  rw [layerTrace]
  split
  · exact tracing_sublist h l s
  · exact List.nil_sublist _

theorem tracing_eq_map {f : α → Stop} (h : ∀ a s, trace a s = [f a]) (l : List α) (s : σ) :
    w.tracing trace l s = l.map f := by
  induction l generalizing s with
  | nil => rfl
  | cons a l ih => rw [tracing, ih, h, List.map_cons, List.singleton_append]

/-- A stop is noted at some part, in the state that the parts before it lead to. -/
theorem mem_tracing {l : List α} {s : σ} {stop : Stop} :
    stop ∈ w.tracing trace l s ↔ ∃ before a after, l = before ++ a :: after ∧
      stop ∈ trace a ((w.tracing trace before s).foldl w.visit s) := by
  induction l generalizing s with
  | nil => simp [tracing]
  | cons a l ih =>
    rw [tracing, List.mem_append, ih]
    constructor
    · rintro (h | ⟨before, b, after, rfl, h⟩)
      · exact ⟨[], a, l, rfl, h⟩
      · refine ⟨a :: before, b, after, rfl, ?_⟩
        rwa [tracing, List.foldl_append]
    · rintro ⟨before, b, after, heq, h⟩
      cases before with
      | nil =>
        cases heq
        exact .inl h
      | cons a' before =>
        cases heq
        rw [tracing, List.foldl_append] at h
        exact .inr ⟨before, b, after, rfl, h⟩

theorem filter_tracing {p : Stop → Bool} {stops : α → List Stop}
    (h : ∀ a s, (trace a s).filter p = stops a) (l : List α) (s : σ) :
    (w.tracing trace l s).filter p = l.flatMap stops := by
  induction l generalizing s with
  | nil => rfl
  | cons a l ih => rw [tracing, List.filter_append, h, ih, List.flatMap_cons]

theorem filter_layerTrace {p : Stop → Bool} {stops : α → List Stop}
    (h : ∀ a s, (trace a s).filter p = stops a) (layer : Layer) (l : List α) (s : σ) :
    (w.layerTrace layer trace l s).filter p = if w.enters s layer then l.flatMap stops else [] := by
  rw [layerTrace]
  split
  · exact filter_tracing h l s
  · rfl

theorem mem_layerTrace {layer : Layer} {l : List α} {s : σ} {stop : Stop} :
    stop ∈ w.layerTrace layer trace l s ↔
      w.enters s layer = true ∧ stop ∈ w.tracing trace l s := by
  rw [layerTrace]
  cases w.enters s layer <;> simp

end Walker

section Declining

variable {w : Walker σ}

theorem Resource.tracing_eq (rs : List Resource) (s : σ) :
    w.tracing Resource.trace rs s = rs.map .resource :=
  Walker.tracing_eq_map (fun _ _ => rfl) rs s

theorem Holding.trace_sublist (h : Holding) (s : σ) : (h.trace w s).Sublist h.stops := by
  refine List.Sublist.cons_cons _ ?_
  rw [Walker.layerTrace, Resource.tracing_eq]
  split
  · exact .refl _
  · exact List.nil_sublist _

theorem Holding.mem_trace_holding {h h' : Holding} {s : σ} :
    .holding h' ∈ h.trace w s ↔ h' = h := by
  simp [trace, Walker.mem_layerTrace, Resource.tracing_eq]

theorem Holding.mem_trace_resource {h : Holding} {s : σ} {r : Resource} :
    .resource r ∈ h.trace w s ↔
      r ∈ h.resources ∧ w.enters (w.visit s (.holding h)) .resources = true := by
  simp only [trace, List.mem_cons, reduceCtorEq, false_or, Walker.mem_layerTrace,
    Resource.tracing_eq, List.mem_map, Stop.resource.injEq, exists_eq_right]
  exact and_comm

theorem Holding.mem_tracing_holding {hs : List Holding} {h : Holding} {s : σ} :
    .holding h ∈ w.tracing (Holding.trace w) hs s ↔ h ∈ hs := by
  rw [Walker.mem_tracing, List.mem_iff_append]
  simp only [mem_trace_holding]
  constructor
  · rintro ⟨before, _, after, heq, rfl⟩
    exact ⟨before, after, heq⟩
  · rintro ⟨before, after, heq⟩
    exact ⟨before, h, after, heq, rfl⟩

theorem Holding.filter_trace (h : Holding) (s : σ) : (h.trace w s).filter Stop.isOuter = [] := by
  rw [trace, Walker.layerTrace, Resource.tracing_eq]
  split <;> simp [Stop.isOuter]

theorem Holding.filter_layerTrace (layer : Layer) (hs : List Holding) (s : σ) :
    (w.layerTrace layer (Holding.trace w) hs s).filter Stop.isOuter = [] := by
  rw [Walker.filter_layerTrace Holding.filter_trace]
  simp

theorem Grant.filter_trace (g : Grant) (s : σ) :
    (g.trace w s).filter Stop.isOuter = [.grant g] := by
  rw [trace, List.filter_cons_of_pos rfl, Holding.filter_layerTrace]

/-- Of sections and grants a walker is called at the section, and at its grants if it enters them.
-/
theorem Section.exists_filter_trace (w : Walker σ) (c : Section) (s : σ) :
    ∃ l : List Stop, l.filter Stop.isOuter = [.directory c] ∧ (c.trace w s).filter Stop.isOuter =
      .directory c :: if w.enters (l.foldl w.visit s) .grants then c.grants.map .grant else [] := by
  refine ⟨.directory c :: w.layerTrace .publicDomain (Holding.trace w) c.publicDomain.toList
    (w.visit s (.directory c)), ?_, ?_⟩
  · rw [List.filter_cons_of_pos rfl, Holding.filter_layerTrace]
  · rw [trace, List.filter_cons_of_pos rfl, List.filter_append, Holding.filter_layerTrace,
      Walker.filter_layerTrace Grant.filter_trace, List.map_eq_flatMap]
    rfl

/-- The same walker, which enters the holdings of grants. -/
def Walker.accepting (w : Walker σ) : Walker σ :=
  { w with enters := fun s layer => layer == .holdings || w.enters s layer }

/-- What was met of holdings and resources has no say in whether grants are entered. -/
def Walker.Settled (w : Walker σ) (s : σ) : Prop :=
  ∀ l l' : List Stop, l.filter Stop.isOuter = l'.filter Stop.isOuter →
    w.enters (l.foldl w.visit s) .grants = w.enters (l'.foldl w.visit s) .grants

theorem Walker.Settled.filter_trace {s : σ} (h : w.Settled s) (cs : List Section)
    {l l' : List Stop} (hl : l.filter Stop.isOuter = l'.filter Stop.isOuter) :
    (w.trace cs (l.foldl w.visit s)).filter Stop.isOuter =
      (w.accepting.trace cs (l'.foldl w.visit s)).filter Stop.isOuter := by
  induction cs generalizing l l' with
  | nil => rfl
  | cons c cs ih =>
    have hsection : (c.trace w (l.foldl w.visit s)).filter Stop.isOuter =
        (c.trace w.accepting (l'.foldl w.visit s)).filter Stop.isOuter := by
      obtain ⟨m, hm, htrace⟩ := c.exists_filter_trace w (l.foldl w.visit s)
      obtain ⟨m', hm', htrace'⟩ := c.exists_filter_trace w.accepting (l'.foldl w.visit s)
      -- up to the grants the two walks met the same but for holdings and resources
      have hmet : (l ++ m).filter Stop.isOuter = (l' ++ m').filter Stop.isOuter := by
        rw [List.filter_append, List.filter_append, hl, hm, hm']
      have hanswer := h _ _ hmet
      rw [List.foldl_append, List.foldl_append] at hanswer
      rw [htrace, htrace', hanswer]
      rfl
    have hmet : (l ++ c.trace w (l.foldl w.visit s)).filter Stop.isOuter =
        (l' ++ c.trace w.accepting (l'.foldl w.visit s)).filter Stop.isOuter := by
      rw [List.filter_append, List.filter_append, hl, hsection]
    have hrest := ih hmet
    rw [List.foldl_append, List.foldl_append] at hrest
    rw [trace, trace, tracing, tracing, List.filter_append, List.filter_append, hsection]
    exact congrArg _ hrest

/-- Everything of a section but the holdings of its grants. -/
def Section.beside (c : Section) : List Stop :=
  .directory c :: (c.publicDomain.toList.flatMap Holding.stops ++ c.grants.map .grant)

/-- Over these sections a walker is called at one of them, and is in this state then. -/
def Walker.Comes (w : Walker σ) (cs : List Section) (s : σ) (c : Section) (t : σ) : Prop :=
  ∃ before after, cs = before ++ c :: after ∧
    t = w.visit ((w.trace before s).foldl w.visit s) (.directory c)

variable (hw : ∀ s, w.enters s .holdings = false)
include hw

theorem Grant.trace_eq (g : Grant) (s : σ) : g.trace w s = [.grant g] := by
  rw [trace, Walker.layerTrace, hw]
  rfl

theorem Section.trace_sublist (c : Section) (s : σ) : (c.trace w s).Sublist c.beside := by
  have hpublic : ∀ s, (w.layerTrace .publicDomain (Holding.trace w) c.publicDomain.toList s).Sublist
      (c.publicDomain.toList.flatMap Holding.stops) :=
    Walker.layerTrace_sublist Holding.trace_sublist _ _
  have hgrants : ∀ s, (w.layerTrace .grants (Grant.trace w) c.grants s).Sublist
      (c.grants.map .grant) := by
    intro s
    rw [Walker.layerTrace, Walker.tracing_eq_map (Grant.trace_eq hw)]
    split
    · exact .refl _
    · exact List.nil_sublist _
  exact ((hpublic _).append (hgrants _)).cons_cons _

/-- Below a section only the public domain is met. -/
theorem Section.mem_trace {c : Section} {s : σ} {stop : Stop} (hd : stop.isOuter = false) :
    stop ∈ c.trace w s ↔ w.enters (w.visit s (.directory c)) .publicDomain = true ∧
      stop ∈ w.tracing (Holding.trace w) c.publicDomain.toList (w.visit s (.directory c)) := by
  have hgrants : ∀ s, stop ∉ w.layerTrace .grants (Grant.trace w) c.grants s := by
    intro s h
    rw [Walker.mem_layerTrace, Walker.tracing_eq_map (Grant.trace_eq hw)] at h
    obtain ⟨g, -, rfl⟩ := List.mem_map.mp h.2
    cases hd
  have hdirectory : stop ≠ .directory c := by
    rintro rfl
    cases hd
  rw [trace, List.mem_cons, or_iff_right hdirectory, List.mem_append, or_iff_left (hgrants _),
    Walker.mem_layerTrace]

theorem Walker.mem_trace {cs : List Section} {s : σ} {stop : Stop} (hstop : stop.isOuter = false) :
    stop ∈ w.trace cs s ↔ ∃ c t, w.Comes cs s c t ∧ w.enters t .publicDomain = true ∧
      stop ∈ w.tracing (Holding.trace w) c.publicDomain.toList t := by
  simp only [trace, mem_tracing, Section.mem_trace hw hstop]
  constructor
  · rintro ⟨before, c, after, heq, henters, hmem⟩
    exact ⟨c, _, ⟨before, after, heq, rfl⟩, henters, hmem⟩
  · rintro ⟨c, _, ⟨before, after, heq, rfl⟩, henters, hmem⟩
    exact ⟨before, c, after, heq, henters, hmem⟩

end Declining

/-- A walker that declines holdings is called at no holding of a grant. At a holding of the public
domain it is called wherever it enters the public domain, and at the resources of one if it enters
these. Of sections and grants it is called at the ones that it would be called at if it entered
holdings, unless what it then meets of these would change where it enters grants. -/
theorem Walker.declines_holdings {w : Walker σ} (hw : ∀ s, w.enters s .holdings = false) (s : σ) :
    (∀ d : Descriptor, d.walk w.recording (s, []) =
      ((w.trace d.sections.toList s).foldl w.visit s, w.trace d.sections.toList s)) ∧
    (∀ (d : Descriptor) name, d.walkSection? name w.recording (s, []) =
      (d.section? name).map fun c => ((w.trace [c] s).foldl w.visit s, w.trace [c] s)) ∧
    ∀ cs, (w.trace cs s).Sublist (cs.flatMap Section.beside) ∧
      (∀ h, .holding h ∈ w.trace cs s ↔ ∃ c t, w.Comes cs s c t ∧
        w.enters t .publicDomain = true ∧ h ∈ c.publicDomain) ∧
      (∀ r, .resource r ∈ w.trace cs s ↔ ∃ c t, w.Comes cs s c t ∧
        w.enters t .publicDomain = true ∧ ∃ before h after,
          c.publicDomain.toList = before ++ h :: after ∧ r ∈ h.resources ∧
          w.enters (w.visit ((w.tracing (Holding.trace w) before t).foldl w.visit t) (.holding h))
            .resources = true) ∧
      (w.Settled s → (w.trace cs s).filter Stop.isOuter =
        (w.accepting.trace cs s).filter Stop.isOuter) := by
  refine ⟨fun d => foldl_walk_recording w d.sections.toList s, ?_, fun cs => ⟨?_, ?_, ?_, ?_⟩⟩
  · intro d name
    rw [Descriptor.walkSection?]
    exact congrArg (Option.map · _) (funext fun c => foldl_walk_recording w [c] s)
  · exact tracing_sublist (Section.trace_sublist hw) cs s
  · intro h
    rw [mem_trace hw rfl]
    simp only [Holding.mem_tracing_holding]
    exact Iff.rfl
  · intro r
    rw [mem_trace hw rfl]
    simp only [mem_tracing, Holding.mem_trace_resource]
  · intro hs
    exact @Settled.filter_trace _ w s hs cs [] [] rfl

/-! ## The public domain all the same -/

namespace Drafting

def shelving : List Call :=
  [.addLicense ⟨"L", "License", "", false, "", ∅⟩, .addOrganisation ⟨"O", "Offcuts", ""⟩,
    .addSection (shelf "a")]

theorem exists_shelving :
    ∃ d : Descriptor, (draftOf shelving).finish "L" none = .ok d ∧
      d.sections.toList = [shelf "a"] := by
  have hregistered : (draftOf shelving).licenses.contains "L" = true := rfl
  obtain ⟨d, hfinish⟩ := Draft.exists_finish_none hregistered
  obtain ⟨_, _, -, -, rfl⟩ := Draft.finish_eq_ok_iff.mp hfinish
  exact ⟨_, hfinish, rfl⟩

/-- Declines holdings, and nothing else. -/
def unheld : Walker Unit where
  enters _ layer := layer != .holdings
  visit _ _ := ()

theorem declines_holdings_shelved :
    ∃ d : Descriptor, (draftOf shelving).finish "L" none = .ok d ∧
      (∀ s, unheld.enters s .holdings = false) ∧
      (d.walk unheld.recording ((), [])).2.Sublist (shelf "a").beside ∧
      (d.walk unheld.recording ((), [])).2.filter Stop.isOuter =
        (unheld.accepting.trace [shelf "a"] ()).filter Stop.isOuter := by
  obtain ⟨d, hfinish, hsections⟩ := exists_shelving
  have hunheld : ∀ s, unheld.enters s .holdings = false := fun _ => rfl
  obtain ⟨hwalk, -, hall⟩ := Walker.declines_holdings hunheld ()
  obtain ⟨hsublist, -, -, houter⟩ := hall [shelf "a"]
  have htrace : (d.walk unheld.recording ((), [])).2 = unheld.trace [shelf "a"] () := by
    rw [hwalk, hsections]
  refine ⟨d, hfinish, hunheld, ?_, ?_⟩
  · rwa [htrace]
  · rw [htrace]
    exact houter fun _ _ _ => rfl

/-- A walker that declines holdings is called at a holding and at its resource, over the whole
descriptor and over the directory alone. -/
theorem public_domain_met :
    ∃ d : Descriptor, (draftOf shelving).finish "L" none = .ok d ∧
      (∀ s, unheld.enters s .holdings = false) ∧
      ∃ h r l, d.walk unheld.recording ((), []) = ((), l) ∧
        d.walkSection? "a" unheld.recording ((), []) = some ((), l) ∧
        .holding h ∈ l ∧ .resource r ∈ l := by
  obtain ⟨d, hfinish, hsections⟩ := exists_shelving
  have hfound : d.section? "a" = some (shelf "a") := by
    rw [Descriptor.section?_eq_some_iff, SortedBy.mem_iff_mem_toList, hsections]
    exact ⟨List.mem_singleton_self _, rfl⟩
  refine ⟨d, hfinish, fun _ => rfl,
    ⟨⟨"O", "Offcuts", ""⟩, ⟨[⟨"w", none, none⟩], List.pairwise_singleton _ _⟩⟩, ⟨"w", none, none⟩,
    unheld.trace [shelf "a"] (), ?_, ?_, ?_, ?_⟩
  · rw [Descriptor.walk, hsections]
    exact foldl_walk_recording unheld [shelf "a"] ()
  · rw [Descriptor.walkSection?, hfound]
    exact congrArg some (foldl_walk_recording unheld [shelf "a"] ())
  · exact List.mem_of_elem_eq_true rfl
  · exact List.mem_of_elem_eq_true rfl

end Drafting

end LicenseAudit
