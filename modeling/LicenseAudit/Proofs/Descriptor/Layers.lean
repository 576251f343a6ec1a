import LicenseAudit.Descriptor.Stops

/-!
# Walks that decline layers

On the way to a stop lie the layers that a walk has to enter to get there: none for a section, two
for a resource of the public domain, three for a resource under a license. `reached` writes them
down beside each stop. A walker that declines the same layers throughout gets exactly the stops with
no declined layer on the way, in the order of the whole walk (`Descriptor.walk_eq_foldl_kept`), so
to decline a layer is to leave out its subtrees and nothing else.
-/

set_option autoImplicit false

namespace LicenseAudit

/-- A stop, with the layers on the way to it. -/
abbrev Reached : Type := Stop × List Layer

def Resource.reached (way : List Layer) (r : Resource) : List Reached := [(.resource r, way)]

def Holding.reached (way : List Layer) (h : Holding) : List Reached :=
  (.holding h, way) :: h.resources.toList.flatMap (Resource.reached (.resources :: way))

def Grant.reached (way : List Layer) (g : Grant) : List Reached :=
  (.grant g, way) :: g.holdings.toList.flatMap (Holding.reached (.holdings :: way))

def Section.reached (s : Section) : List Reached :=
  (.directory s, []) :: (s.publicDomain.toList.flatMap (Holding.reached [.publicDomain]) ++
    s.grants.flatMap (Grant.reached [.grants]))

def Descriptor.reached (d : Descriptor) : List Reached :=
  d.sections.toList.flatMap Section.reached

/-! ## The layers on the way -/

theorem Holding.map_reached (way : List Layer) (h : Holding) :
    (h.reached way).map Prod.fst = h.stops := by
  have hone : ∀ r : Resource, (r.reached (.resources :: way)).map Prod.fst = [.resource r] :=
    fun _ => rfl
  simp only [reached, stops, List.map_cons, List.map_flatMap, hone, ← List.map_eq_flatMap]

theorem Grant.map_reached (way : List Layer) (g : Grant) :
    (g.reached way).map Prod.fst = g.stops := by
  simp [reached, stops, List.map_flatMap, Holding.map_reached]

theorem Section.map_reached (s : Section) : s.reached.map Prod.fst = s.stops := by
  simp [reached, stops, List.map_flatMap, Holding.map_reached, Grant.map_reached]

theorem Descriptor.map_reached (d : Descriptor) : d.reached.map Prod.fst = d.stops := by
  simp [reached, stops, List.map_flatMap, Section.map_reached]

theorem Resource.mem_way {way : List Layer} {r : Resource} {e : Reached}
    (he : e ∈ r.reached way) {layer : Layer} (hlayer : layer ∈ way) : layer ∈ e.2 := by
  rw [reached, List.mem_singleton] at he
  rwa [he]

theorem Holding.mem_way {way : List Layer} {h : Holding} {e : Reached}
    (he : e ∈ h.reached way) {layer : Layer} (hlayer : layer ∈ way) : layer ∈ e.2 := by
  rcases List.mem_cons.mp he with rfl | he
  · exact hlayer
  · obtain ⟨r, -, he⟩ := List.mem_flatMap.mp he
    exact Resource.mem_way he (List.mem_cons_of_mem _ hlayer)

theorem Grant.mem_way {way : List Layer} {g : Grant} {e : Reached}
    (he : e ∈ g.reached way) {layer : Layer} (hlayer : layer ∈ way) : layer ∈ e.2 := by
  rcases List.mem_cons.mp he with rfl | he
  · exact hlayer
  · obtain ⟨h, -, he⟩ := List.mem_flatMap.mp he
    exact Holding.mem_way he (List.mem_cons_of_mem _ hlayer)

/-! ## What is left -/

/-- The stops whose way leads through none but these layers. -/
def kept (enters : Layer → Bool) (l : List Reached) : List Stop :=
  (l.filter fun e => e.2.all enters).map Prod.fst

section Kept

variable {enters : Layer → Bool} {way : List Layer}

theorem kept_cons (hway : way.all enters = true) (stop : Stop) (l : List Reached) :
    kept enters ((stop, way) :: l) = stop :: kept enters l := by
  simp only [kept, List.filter_cons, hway, if_true, List.map_cons]

theorem kept_append (l l' : List Reached) :
    kept enters (l ++ l') = kept enters l ++ kept enters l' := by
  simp only [kept, List.filter_append, List.map_append]

theorem kept_flatMap {α : Type} (f : α → List Reached) (l : List α) :
    kept enters (l.flatMap f) = l.flatMap fun a => kept enters (f a) := by
  simp only [kept, List.filter_flatMap, List.map_flatMap]

theorem kept_eq_nil {l : List Reached} {layer : Layer} (h : enters layer = false)
    (hl : ∀ e ∈ l, layer ∈ e.2) : kept enters l = [] := by
  simp only [kept, List.map_eq_nil_iff, List.filter_eq_nil_iff, List.all_eq_true]
  intro e he hall
  have hlayer := hall layer (hl e he)
  rw [h] at hlayer
  cases hlayer

variable {σ : Type} {w : Walker σ}

/-- A layer is walked over part by part if it is entered, and otherwise left out. -/
theorem foldl_layer_eq {α : Type} {walk : α → σ → σ} {reached : α → List Reached} {layer : Layer}
    (hbehind : ∀ a, ∀ e ∈ reached a, layer ∈ e.2)
    (hwalk : enters layer = true →
      ∀ a s, walk a s = (kept enters (reached a)).foldl w.visit s) (l : List α) (s : σ) :
    (if enters layer then l.foldl (fun s a => walk a s) s else s) =
      (kept enters (l.flatMap reached)).foldl w.visit s := by
  cases he : enters layer with
  | false =>
    have hnone : kept enters (l.flatMap reached) = [] := by
      apply kept_eq_nil he
      intro e hmem
      obtain ⟨a, -, hmem⟩ := List.mem_flatMap.mp hmem
      exact hbehind a e hmem
    rw [hnone]
    rfl
  | true =>
    rw [kept_flatMap]
    exact foldl_walk_eq (hwalk he) l s

theorem Resource.walk_eq_foldl_kept (hway : way.all enters = true) (r : Resource) (s : σ) :
    r.walk w s = (kept enters (r.reached way)).foldl w.visit s := by
  rw [reached, kept_cons hway]
  rfl

theorem Holding.walk_eq_foldl_kept (hw : ∀ s layer, w.enters s layer = enters layer)
    (hway : way.all enters = true) (h : Holding) (s : σ) :
    h.walk w s = (kept enters (h.reached way)).foldl w.visit s := by
  rw [reached, kept_cons hway, List.foldl_cons, walk, hw]
  apply foldl_layer_eq
  · intro r e he
    exact Resource.mem_way he List.mem_cons_self
  · intro he
    exact Resource.walk_eq_foldl_kept (by simp [he, hway])

theorem Grant.walk_eq_foldl_kept (hw : ∀ s layer, w.enters s layer = enters layer)
    (hway : way.all enters = true) (g : Grant) (s : σ) :
    g.walk w s = (kept enters (g.reached way)).foldl w.visit s := by
  rw [reached, kept_cons hway, List.foldl_cons, walk, hw]
  apply foldl_layer_eq
  · intro h e he
    exact Holding.mem_way he List.mem_cons_self
  · intro he
    exact Holding.walk_eq_foldl_kept hw (by simp [he, hway])

theorem Section.walk_eq_foldl_kept (hw : ∀ s layer, w.enters s layer = enters layer)
    (c : Section) (s : σ) : c.walk w s = (kept enters c.reached).foldl w.visit s := by
  have hpublic : ∀ s, (if enters .publicDomain
      then c.publicDomain.toList.foldl (fun s h => h.walk w s) s else s) =
      (kept enters (c.publicDomain.toList.flatMap (Holding.reached [.publicDomain]))).foldl
        w.visit s := by
    apply foldl_layer_eq
    · intro h e he
      exact Holding.mem_way he List.mem_cons_self
    · intro he
      exact Holding.walk_eq_foldl_kept hw (by simp [he])
  have hgrants : ∀ s, (if enters .grants then c.grants.foldl (fun s g => g.walk w s) s else s) =
      (kept enters (c.grants.flatMap (Grant.reached [.grants]))).foldl w.visit s := by
    apply foldl_layer_eq
    · intro g e he
      exact Grant.mem_way he List.mem_cons_self
    · intro he
      exact Grant.walk_eq_foldl_kept hw (by simp [he])
  rw [reached, kept_cons List.all_nil, kept_append, List.foldl_cons, List.foldl_append, ← hpublic,
    ← hgrants, walk]
  simp only [hw]

/-- A walker that declines the same layers throughout folds over the stops behind none of them. -/
theorem Descriptor.walk_eq_foldl_kept (hw : ∀ s layer, w.enters s layer = enters layer)
    (d : Descriptor) (s : σ) : d.walk w s = (kept enters d.reached).foldl w.visit s := by
  rw [reached, kept_flatMap]
  exact foldl_walk_eq (Section.walk_eq_foldl_kept hw) _ _

end Kept

end LicenseAudit
