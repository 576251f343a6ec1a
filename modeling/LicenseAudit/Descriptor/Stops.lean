import LicenseAudit.Descriptor.Walk

/-!
# The stops of a walk

The order of the walk, written down as a list: everything that a descriptor declares, once for
each time that it is declared. **A walker that enters every layer sees exactly these stops, in this
order** (`Descriptor.walk_eq_foldl_stops`), so what it gathers is a fold over the list, and nothing
about it depends on how the walk is organised.
-/

set_option autoImplicit false

namespace LicenseAudit

/-- A holding and its resources. -/
def Holding.stops (h : Holding) : List Stop := .holding h :: h.resources.toList.map .resource

/-- A grant and its holdings. -/
def Grant.stops (g : Grant) : List Stop := .grant g :: g.holdings.toList.flatMap Holding.stops

/-- A section, its public domain and its grants. -/
def Section.stops (s : Section) : List Stop :=
  .directory s :: (s.publicDomain.toList.flatMap Holding.stops ++ s.grants.flatMap Grant.stops)

/-- Everything that a descriptor declares. -/
def Descriptor.stops (d : Descriptor) : List Stop := d.sections.toList.flatMap Section.stops

/-- A walker that declines nothing. -/
def Walker.EntersAll {σ : Type} (w : Walker σ) : Prop := ∀ s layer, w.enters s layer = true

variable {σ : Type} {w : Walker σ}

/-- Folding over parts one by one is folding over all their stops. -/
theorem foldl_walk_eq {α : Type} {walk : α → σ → σ} {stops : α → List Stop}
    (h : ∀ a s, walk a s = (stops a).foldl w.visit s) (l : List α) (s : σ) :
    l.foldl (fun s a => walk a s) s = (l.flatMap stops).foldl w.visit s := by
  induction l generalizing s with
  | nil => rfl
  | cons a l ih => rw [List.foldl_cons, ih, List.flatMap_cons, List.foldl_append, h]

theorem Holding.walk_eq_foldl_stops (hw : w.EntersAll) (h : Holding) (s : σ) :
    h.walk w s = h.stops.foldl w.visit s := by
  simp only [Holding.walk, hw _ _, if_true, Holding.stops, List.foldl_cons, List.foldl_map]
  rfl

theorem Grant.walk_eq_foldl_stops (hw : w.EntersAll) (g : Grant) (s : σ) :
    g.walk w s = g.stops.foldl w.visit s := by
  simp only [Grant.walk, hw _ _, if_true, Grant.stops, List.foldl_cons]
  exact foldl_walk_eq (Holding.walk_eq_foldl_stops hw) _ _

theorem Section.walk_eq_foldl_stops (hw : w.EntersAll) (c : Section) (s : σ) :
    c.walk w s = c.stops.foldl w.visit s := by
  simp only [Section.walk, hw _ _, if_true, Section.stops, List.foldl_cons, List.foldl_append]
  rw [foldl_walk_eq (Holding.walk_eq_foldl_stops hw)]
  exact foldl_walk_eq (Grant.walk_eq_foldl_stops hw) _ _

/-- A walker that declines nothing folds over the stops of the descriptor. -/
theorem Descriptor.walk_eq_foldl_stops (hw : w.EntersAll) (d : Descriptor) (s : σ) :
    d.walk w s = d.stops.foldl w.visit s :=
  foldl_walk_eq (Section.walk_eq_foldl_stops hw) _ _

end LicenseAudit
