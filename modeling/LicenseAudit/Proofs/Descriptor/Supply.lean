import Mathlib.Data.List.Forall2
import LicenseAudit.Descriptor.Stops
import LicenseAudit.Proofs.Ordered.Arrangement

/-!
# What sections are made of

A section is made bottom up of what is supplied for it, in any order; making it fails only for the
parameters of a grant. `InOrder` says of a list of stops that it goes through what was supplied,
each thing once, in the order that the library promises: a group is directly followed by what is in
it, grants stand as supplied, holdings by organisation and resources by name, ties as supplied. The
stops of a section are in order for whatever it is made of (`SuppliedSection.inOrder_stops`), and
every section is made of something (`exists_supply`).
-/

set_option autoImplicit false

namespace LicenseAudit

/-- A holding as it is supplied. -/
structure SuppliedHolding where
  organisation : Organisation
  resources : List Resource

structure SuppliedGrant where
  license : License
  copyrightNotice : Option String
  parameters : List (String × String)
  holdings : List SuppliedHolding

structure SuppliedSection where
  name : String
  grants : List SuppliedGrant
  publicDomain : List SuppliedHolding

/-! ## Making -/

def SuppliedHolding.make (x : SuppliedHolding) : Holding := .ofResources x.organisation x.resources

/-- The organisation's name, then its id. -/
def SuppliedHolding.rank (x : SuppliedHolding) : List String :=
  [x.organisation.name, x.organisation.id]

def SuppliedGrant.make (x : SuppliedGrant) : Except Fault Grant :=
  Grant.make x.license x.copyrightNotice x.parameters (x.holdings.map SuppliedHolding.make)

def SuppliedSection.make (x : SuppliedSection) : Except Fault Section := do
  return .ofGroups x.name (← x.grants.mapM SuppliedGrant.make)
    (x.publicDomain.map SuppliedHolding.make)

theorem mapM_eq_ok_iff {α β : Type} {f : α → Except Fault β} {xs : List α} {ys : List β} :
    xs.mapM f = .ok ys ↔ List.Forall₂ (fun x y => f x = .ok y) xs ys := by
  induction xs generalizing ys with
  | nil => cases ys <;> simp [pure, Except.pure]
  | cons x xs ih =>
    rw [List.mapM_cons]
    cases hx : f x with
    | error e => cases ys <;> simp [bind, Except.bind, hx]
    | ok y =>
      cases hxs : xs.mapM f with
      | error e => cases ys <;> simp [bind, Except.bind, ← ih, hx, hxs]
      | ok ys' => cases ys <;> simp [bind, Except.bind, pure, Except.pure, ← ih, hx, hxs]

theorem SuppliedSection.make_eq_ok_iff {x : SuppliedSection} {s : Section} :
    x.make = .ok s ↔ ∃ gs, List.Forall₂ (fun x g => x.make = .ok g) x.grants gs ∧
      s = .ofGroups x.name gs (x.publicDomain.map SuppliedHolding.make) := by
  simp only [← mapM_eq_ok_iff, make]
  cases x.grants.mapM SuppliedGrant.make with
  | error e => simp [bind, Except.bind]
  | ok gs => simp [bind, Except.bind, pure, Except.pure, eq_comm]

theorem Grant.make_eq_ok {license : License} {notice : Option String}
    {supplied : List (String × String)} {holdings : List Holding} {g : Grant}
    (h : Grant.make license notice supplied holdings = .ok g) :
    g.license = license ∧ g.holdings = .ofList holdings := by
  unfold Grant.make at h
  cases hrepeat : firstRepeat? [] (supplied.map (·.1)) with
  | some parameter => simp [hrepeat] at h
  | none =>
    by_cases haccepts : license.Accepts (SortedBy.ofList supplied)
    · simp only [hrepeat, haccepts, dite_true, Except.ok.injEq] at h
      rw [← h]
      exact ⟨rfl, rfl⟩
    · simp [hrepeat, haccepts] at h

/-! ## Order -/

/-- The holding, then its resources by name. -/
def SuppliedHolding.InOrder (x : SuppliedHolding) (l : List Stop) : Prop :=
  ∃ rs, Arranges Resource.name x.resources rs ∧ l = .holding x.make :: rs.map .resource

/-- The parts of a list go through these holdings, by organisation. -/
def HoldingsInOrder (xs : List SuppliedHolding) (l : List Stop) : Prop :=
  ∃ hs parts, Arranges SuppliedHolding.rank xs hs ∧
    List.Forall₂ SuppliedHolding.InOrder hs parts ∧ l = parts.flatten

/-- The grant, then its holdings. -/
def SuppliedGrant.InOrder (x : SuppliedGrant) (l : List Stop) : Prop :=
  ∃ g l', x.make = .ok g ∧ HoldingsInOrder x.holdings l' ∧ l = .grant g :: l'

/-- The section, then its public domain, then its grants as they were supplied. -/
def SuppliedSection.InOrder (x : SuppliedSection) (l : List Stop) : Prop :=
  ∃ s l' parts, x.make = .ok s ∧ HoldingsInOrder x.publicDomain l' ∧
    List.Forall₂ SuppliedGrant.InOrder x.grants parts ∧ l = .directory s :: (l' ++ parts.flatten)

theorem SuppliedHolding.inOrder_stops (x : SuppliedHolding) : x.InOrder x.make.stops :=
  ⟨_, Arranged.arranges_mergeSort x.resources, rfl⟩

theorem holdingsInOrder_stops (xs : List SuppliedHolding) :
    HoldingsInOrder xs
      ((Arranged.ofList (xs.map SuppliedHolding.make) :
        Arranged Holding.rank).toList.flatMap Holding.stops) := by
  -- holdings are put in order just as the supplies that they are made of
  have hrank : ∀ x y : SuppliedHolding,
      Arranged.keyLE SuppliedHolding.rank x y = Arranged.keyLE Holding.rank x.make y.make :=
    fun _ _ => rfl
  have hsort : (xs.map SuppliedHolding.make).mergeSort (Arranged.keyLE Holding.rank) =
      (xs.mergeSort (Arranged.keyLE SuppliedHolding.rank)).map SuppliedHolding.make :=
    (List.map_mergeSort fun x _ y _ => hrank x y).symm
  refine ⟨_, _, Arranged.arranges_mergeSort xs, ?_, List.flatMap_def⟩
  show List.Forall₂ _ _
    (((xs.map SuppliedHolding.make).mergeSort (Arranged.keyLE Holding.rank)).map Holding.stops)
  rw [hsort, List.map_map, List.forall₂_map_right_iff, List.forall₂_same]
  intro x _
  exact x.inOrder_stops

theorem SuppliedGrant.inOrder_stops {x : SuppliedGrant} {g : Grant} (h : x.make = .ok g) :
    x.InOrder g.stops := by
  refine ⟨g, _, h, ?_, rfl⟩
  rw [(Grant.make_eq_ok h).2]
  exact holdingsInOrder_stops x.holdings

theorem SuppliedSection.inOrder_stops {x : SuppliedSection} {s : Section} (h : x.make = .ok s) :
    x.InOrder s.stops := by
  obtain ⟨gs, hgs, rfl⟩ := make_eq_ok_iff.mp h
  refine ⟨_, _, gs.map Grant.stops, h, holdingsInOrder_stops x.publicDomain, ?_, ?_⟩
  · rw [List.forall₂_map_right_iff]
    exact hgs.imp fun _ _ hg => SuppliedGrant.inOrder_stops hg
  · rw [← List.flatMap_def]
    rfl

/-! ## Whatever there is was supplied -/

theorem firstRepeat?_eq_none_iff {seen l : List String} :
    firstRepeat? seen l = none ↔ l.Nodup ∧ ∀ x ∈ l, x ∉ seen := by
  induction l generalizing seen with
  | nil => simp [firstRepeat?]
  | cons x l ih =>
    rw [firstRepeat?]
    split
    · simp [*]
    · rw [ih]
      grind

/-- What a holding is made of. -/
def Holding.supply (h : Holding) : SuppliedHolding := ⟨h.organisation, h.resources.toList⟩

def Grant.supply (g : Grant) : SuppliedGrant :=
  ⟨g.license, g.copyrightNotice, g.parameters.toList, g.holdings.toList.map Holding.supply⟩

def Section.supply (s : Section) : SuppliedSection :=
  ⟨s.name, s.grants.map Grant.supply, s.publicDomain.toList.map Holding.supply⟩

theorem Holding.make_supply (h : Holding) : h.supply.make = h := by
  rw [supply, SuppliedHolding.make, ofResources, Arranged.ofList_toList]

theorem make_supply_holdings (a : Arranged Holding.rank) :
    (a.toList.map Holding.supply).map SuppliedHolding.make = a.toList := by
  simp [List.map_map, Function.comp_def, Holding.make_supply]

theorem Grant.make_supply (g : Grant) : g.supply.make = .ok g := by
  have hrepeat : firstRepeat? [] (g.parameters.toList.map (·.1)) = none :=
    firstRepeat?_eq_none_iff.mpr ⟨SortedBy.nodup_keys g.parameters, fun _ _ => List.not_mem_nil⟩
  have hvalues : (SortedBy.ofList g.parameters.toList : Parameters) = g.parameters :=
    SortedBy.ofList_toList g.parameters
  simp only [supply, SuppliedGrant.make, Grant.make, hrepeat, hvalues, make_supply_holdings,
    Arranged.ofList_toList, dif_pos g.accepted]

theorem Section.make_supply (s : Section) : s.supply.make = .ok s := by
  refine SuppliedSection.make_eq_ok_iff.mpr ⟨s.grants, ?_, ?_⟩
  · show List.Forall₂ _ (s.grants.map Grant.supply) s.grants
    rw [List.forall₂_map_left_iff, List.forall₂_same]
    intro g _
    exact g.make_supply
  · simp only [supply, ofGroups, make_supply_holdings, Arranged.ofList_toList]

theorem exists_supply (s : Section) : ∃ x : SuppliedSection, x.make = .ok s :=
  ⟨s.supply, s.make_supply⟩

end LicenseAudit
