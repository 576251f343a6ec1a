import LicenseAudit.Descriptor.Drafting
import LicenseAudit.Proofs.Ordered.Insertion

/-!
# What calls on a draft keep

A section refers to licenses and organisations by id, in a fixed order: grant by grant the license
and then its organisations, and the public domain at the end (`Section.references`). Adding a
section is a search for the first of them that is not registered (`addSection_eq`), so what is wrong
with a section is told in that order.

Every call either writes what `Draft.effect` says or leaves the draft as it is (`run_perform`). From
this the statements about all drafts follow by induction on the calls: whatever is registered stays
registered as it is, and what a section that was taken refers to is registered.
-/

set_option autoImplicit false

namespace LicenseAudit

/-! ## References -/

/-- What a group refers to by id. -/
inductive Reference where
  | license (id : String)
  | organisation (id : String)

namespace Reference

def fault : Reference → Fault
  | license id => .unknownLicense id
  | organisation id => .unknownOrganisation id

/-- Whether one of these licenses or organisations is meant. -/
def isIn (ls : Licenses) (os : Organisations) : Reference → Bool
  | license id => ls.contains id
  | organisation id => os.contains id

theorem fault_ne_duplicateDirectory (r : Reference) (name : String) :
    r.fault ≠ .duplicateDirectory name := by
  cases r <;> simp [fault]

end Reference

def Holding.reference (h : Holding) : Reference := .organisation h.organisation.id

/-- The license first, then the organisations. -/
def Grant.references (g : Grant) : List Reference :=
  .license g.license.id :: g.holdings.toList.map Holding.reference

/-- The grants first, then the public domain. -/
def Section.references (s : Section) : List Reference :=
  s.grants.flatMap Grant.references ++ s.publicDomain.toList.map Holding.reference

theorem Section.mem_references {s : Section} {r : Reference} :
    r ∈ s.references ↔
      (∃ g ∈ s.grants, r = .license g.license.id ∨ ∃ h ∈ g.holdings, r = h.reference) ∨
        ∃ h ∈ s.publicDomain, r = h.reference := by
  simp only [references, Grant.references, List.mem_append, List.mem_flatMap, List.mem_cons,
    List.mem_map, eq_comm]
  exact Iff.rfl

theorem Licenses.lookup_eq_ok {ls : Licenses} {id : String} {l : License} :
    lookup ls id = .ok l ↔ ls.find? id = some l := by
  unfold lookup
  cases ls.find? id <;> simp

theorem Organisations.lookup_eq_ok {os : Organisations} {id : String} {o : Organisation} :
    lookup os id = .ok o ↔ os.find? id = some o := by
  unfold lookup
  cases os.find? id <;> simp

namespace Draft

variable {d d' : Draft}

def registers (d : Draft) (r : Reference) : Bool := r.isIn d.licenses d.organisations

/-- Refuses the first reference that is not registered. -/
def check (d : Draft) (rs : List Reference) : Except Fault Unit :=
  match rs.find? fun r => !d.registers r with
  | some r => .error r.fault
  | none => .ok ()

theorem check_cons {r : Reference} {rs : List Reference} :
    d.check (r :: rs) = if d.registers r then d.check rs else .error r.fault := by
  cases h : d.registers r <;> simp [check, h]

theorem check_append {rs rs' : List Reference} :
    d.check (rs ++ rs') = d.check rs >>= fun _ => d.check rs' := by
  induction rs with
  | nil => rfl
  | cons r rs ih =>
    rw [List.cons_append, check_cons, check_cons, ih]
    cases d.registers r <;> rfl

theorem check_eq_ok_iff {rs : List Reference} :
    d.check rs = .ok () ↔ ∀ r ∈ rs, d.registers r = true := by
  unfold check
  cases h : rs.find? fun r => !d.registers r with
  | none => simpa using h
  | some r =>
    obtain ⟨hr, hmem⟩ := And.intro (List.find?_some h) (List.mem_of_find?_eq_some h)
    simp only [reduceCtorEq, false_iff]
    intro hall
    simp [hall r hmem] at hr

theorem check_license (id : String) :
    (d.license id >>= fun _ => pure ()) = d.check [.license id] := by
  rw [check_cons, license, Licenses.lookup, registers, Reference.isIn, SortedBy.contains]
  cases d.licenses.find? id <;> rfl

theorem check_organisation (id : String) :
    (d.organisation id >>= fun _ => pure ()) = d.check [.organisation id] := by
  rw [check_cons, organisation, Organisations.lookup, registers, Reference.isIn, SortedBy.contains]
  cases d.organisations.find? id <;> rfl

theorem checkHoldings_eq (hs : List Holding) :
    d.checkHoldings hs = d.check (hs.map Holding.reference) := by
  induction hs with
  | nil => rfl
  | cons h hs ih =>
    have hcons := @check_append d [h.reference] (hs.map Holding.reference)
    rw [Holding.reference, ← check_organisation, ← ih] at hcons
    exact hcons.symm

theorem checkGrants_eq (gs : List Grant) :
    d.checkGrants gs = d.check (gs.flatMap Grant.references) := by
  induction gs with
  | nil => rfl
  | cons g gs ih =>
    have hgrant : d.check g.references =
        d.license g.license.id >>= fun _ => d.checkHoldings g.holdings.toList := by
      show d.check ([.license g.license.id] ++ g.holdings.toList.map Holding.reference) = _
      rw [check_append, ← check_license, ← checkHoldings_eq, bind_assoc]
      rfl
    rw [List.flatMap_cons, check_append, ← ih, hgrant]
    rfl

/-- A section of a new directory is taken if all that it refers to is registered. -/
theorem addSection_eq (s : Section) :
    d.addSection s =
      if d.sections.contains s.name then .error (.duplicateDirectory s.name)
      else (d.check s.references).map fun _ => { d with sections := d.sections.insertNew s } := by
  rw [addSection, checkGrants_eq, checkHoldings_eq, Section.references, check_append]
  cases d.check (s.grants.flatMap Grant.references) with
  | error f => rfl
  | ok _ =>
    cases d.check (s.publicDomain.toList.map Holding.reference) <;> rfl

/-! ## What is kept -/

/-- What is found under an id or a name has it, and whatever a section refers to is registered.

The first three hold of every draft, for its tables are sorted by the id or the name of what is in
them (`SortedBy.key_of_find?`). The last is what the calls see to. -/
structure Consistent (d : Draft) : Prop where
  license_id : ∀ id l, d.licenses.find? id = some l → l.id = id
  organisation_id : ∀ id o, d.organisations.find? id = some o → o.id = id
  section_name : ∀ name s, d.sections.find? name = some s → s.name = name
  registered : ∀ s ∈ d.sections, ∀ r ∈ s.references, d.registers r = true

/-- Whatever is found in a draft is found, unchanged, in another. -/
structure KeptIn (d d' : Draft) : Prop where
  license : ∀ id l, d.licenses.find? id = some l → d'.licenses.find? id = some l
  organisation : ∀ id o, d.organisations.find? id = some o → d'.organisations.find? id = some o
  sections : ∀ name s, d.sections.find? name = some s → d'.sections.find? name = some s

theorem KeptIn.refl (d : Draft) : d.KeptIn d := ⟨fun _ _ h => h, fun _ _ h => h, fun _ _ h => h⟩

theorem KeptIn.trans {d'' : Draft} (h : d.KeptIn d') (h' : d'.KeptIn d'') : d.KeptIn d'' :=
  ⟨fun _ _ hl => h'.license _ _ (h.license _ _ hl),
    fun _ _ ho => h'.organisation _ _ (h.organisation _ _ ho),
    fun _ _ hs => h'.sections _ _ (h.sections _ _ hs)⟩

theorem KeptIn.registers (h : d.KeptIn d') {r : Reference} (hr : d.registers r = true) :
    d'.registers r = true := by
  cases r with
  | license id =>
    obtain ⟨l, hl⟩ := Option.isSome_iff_exists.mp hr
    exact Option.isSome_iff_exists.mpr ⟨l, h.license id l hl⟩
  | organisation id =>
    obtain ⟨o, ho⟩ := Option.isSome_iff_exists.mp hr
    exact Option.isSome_iff_exists.mpr ⟨o, h.organisation id o ho⟩

/-- What a call makes of a draft. -/
def effect (d : Draft) : Drafting.Call → Except Fault Draft
  | .addLicense l => d.addLicense l
  | .addOrganisation o => d.addOrganisation o
  | .addNotice id text => .ok (d.addNotice id text)
  | .setPrimaryNotice text => .ok (d.setPrimaryNotice text)
  | .setPrimaryCopyrightNotice text => .ok (d.setPrimaryCopyrightNotice text)
  | .addSection s => d.addSection s

theorem addLicense_eq_ok {l : License} (h : d.addLicense l = .ok d') :
    d' = { d with licenses := d.licenses.insertNew l } := by
  unfold addLicense at h
  split at h <;> cases h
  rfl

theorem addOrganisation_eq_ok {o : Organisation} (h : d.addOrganisation o = .ok d') :
    d' = { d with organisations := d.organisations.insertNew o } := by
  unfold addOrganisation at h
  split at h <;> cases h
  rfl

theorem addSection_eq_ok {s : Section} (h : d.addSection s = .ok d') :
    d' = { d with sections := d.sections.insertNew s } ∧
      ∀ r ∈ s.references, d.registers r = true := by
  rw [addSection_eq] at h
  split at h
  · cases h
  · cases hc : d.check s.references with
    | error f => simp [hc, Except.map] at h
    | ok _ =>
      simp only [hc, Except.map] at h
      cases h
      exact ⟨rfl, check_eq_ok_iff.mp hc⟩

theorem KeptIn.effect {c : Drafting.Call} (h : d.effect c = .ok d') : d.KeptIn d' := by
  cases c with
  | addLicense l =>
    rw [addLicense_eq_ok h]
    exact ⟨fun _ _ hl => SortedBy.find?_insertNew_of_find? hl, fun _ _ h => h, fun _ _ h => h⟩
  | addOrganisation o =>
    rw [addOrganisation_eq_ok h]
    exact ⟨fun _ _ h => h, fun _ _ ho => SortedBy.find?_insertNew_of_find? ho, fun _ _ h => h⟩
  | addSection s =>
    rw [(addSection_eq_ok h).1]
    exact ⟨fun _ _ h => h, fun _ _ h => h, fun _ _ hs => SortedBy.find?_insertNew_of_find? hs⟩
  | addNotice | setPrimaryNotice | setPrimaryCopyrightNotice =>
    cases h
    exact ⟨fun _ _ h => h, fun _ _ h => h, fun _ _ h => h⟩

theorem Consistent.of_registered
    (h : ∀ s ∈ d.sections, ∀ r ∈ s.references, d.registers r = true) : d.Consistent :=
  ⟨fun _ _ => SortedBy.key_of_find?, fun _ _ => SortedBy.key_of_find?,
    fun _ _ => SortedBy.key_of_find?, h⟩

theorem consistent_empty : Consistent ∅ :=
  .of_registered fun _ hs => absurd hs SortedBy.not_mem_empty

theorem Consistent.effect {c : Drafting.Call} (hd : d.Consistent) (h : d.effect c = .ok d') :
    d'.Consistent := by
  have hkept := KeptIn.effect h
  -- a section that was there keeps its references; a new one was checked
  have hsections : ∀ s ∈ d'.sections,
      s ∈ d.sections ∨ ∀ r ∈ s.references, d.registers r = true := by
    intro s hs
    cases c with
    | addSection s' =>
      obtain ⟨rfl, hchecked⟩ := addSection_eq_ok h
      rcases SortedBy.mem_insertNew.mp hs with ⟨rfl, -⟩ | hs
      · exact .inr hchecked
      · exact .inl hs
    | addLicense l =>
      rw [addLicense_eq_ok h] at hs
      exact .inl hs
    | addOrganisation o =>
      rw [addOrganisation_eq_ok h] at hs
      exact .inl hs
    | addNotice | setPrimaryNotice | setPrimaryCopyrightNotice =>
      cases h
      exact .inl hs
  apply Consistent.of_registered
  intro s hs r hr
  rcases hsections s hs with hs | hchecked
  · exact hkept.registers (hd.registered s hs r hr)
  · exact hkept.registers (hchecked r hr)

/-! ## Finishing -/

theorem finish_eq_ok_iff {license : String} {organisation : Option String} {desc : Descriptor} :
    d.finish license organisation = .ok desc ↔
      ∃ l o, d.license license = .ok l ∧ organisation.mapM d.organisation = .ok o ∧
        desc = ⟨l, o, d.primaryCopyrightNotice, d.primaryNotice, d.licenses, d.organisations,
          d.notices, d.sections⟩ := by
  unfold finish
  cases hl : d.license license with
  | error f => simp [bind, Except.bind]
  | ok l =>
    cases ho : organisation.mapM d.organisation with
    | error f => simp [bind, Except.bind]
    | ok o => simp [bind, Except.bind, pure, Except.pure, eq_comm]

theorem exists_license_iff {id : String} :
    (∃ l, d.license id = .ok l) ↔ d.licenses.contains id = true := by
  simp only [license, Licenses.lookup_eq_ok, SortedBy.contains, Option.isSome_iff_exists]

theorem exists_organisation_iff {id : String} :
    (∃ o, d.organisation id = .ok o) ↔ d.organisations.contains id = true := by
  simp only [organisation, Organisations.lookup_eq_ok, SortedBy.contains, Option.isSome_iff_exists]

theorem exists_finish_iff {license : String} {organisation : Option String} :
    (∃ desc, d.finish license organisation = .ok desc) ↔
      d.licenses.contains license = true ∧
        ∀ id ∈ organisation, d.organisations.contains id = true := by
  have hprimary : (∃ o, organisation.mapM d.organisation = .ok o) ↔
      ∀ id ∈ organisation, d.organisations.contains id = true := by
    cases organisation with
    | none => simp; exact ⟨none, rfl⟩
    | some id =>
      simp only [Option.mem_some_iff, forall_eq', ← exists_organisation_iff, Option.mapM_some]
      cases d.organisation id <;> simp [Functor.map, Except.map]
  simp only [finish_eq_ok_iff, ← exists_license_iff, ← hprimary]
  constructor
  · intro h
    obtain ⟨desc, l, o, hl, ho, -⟩ := h
    exact ⟨⟨l, hl⟩, ⟨o, ho⟩⟩
  · intro h
    obtain ⟨⟨l, hl⟩, ⟨o, ho⟩⟩ := h
    exact ⟨_, l, o, hl, ho, rfl⟩

theorem exists_finish_none {license : String} (h : d.licenses.contains license = true) :
    ∃ desc, d.finish license none = .ok desc :=
  exists_finish_iff.mpr ⟨h, fun _ hid => nomatch hid⟩

end Draft

/-- The license and the organisations of every group of a section are found by their ids. -/
structure Descriptor.Resolves (d : Descriptor) (s : Section) : Prop where
  license : ∀ g ∈ s.grants, ∃ l, d.license g.license.id = .ok l
  holder : ∀ g ∈ s.grants, ∀ h ∈ g.holdings, ∃ o, d.organisation h.organisation.id = .ok o
  publicDomain : ∀ h ∈ s.publicDomain, ∃ o, d.organisation h.organisation.id = .ok o

theorem Draft.Consistent.resolves {d : Draft} (h : d.Consistent) {license : String}
    {organisation : Option String} {desc : Descriptor}
    (hfinish : d.finish license organisation = .ok desc) {s : Section} (hs : s ∈ d.sections) :
    desc.Resolves s := by
  obtain ⟨l, o, -, -, rfl⟩ := finish_eq_ok_iff.mp hfinish
  have hregistered := h.registered s hs
  constructor
  · intro g hg
    exact exists_license_iff.mpr
      (hregistered (.license g.license.id) (Section.mem_references.mpr (.inl ⟨g, hg, .inl rfl⟩)))
  · intro g hg holding hh
    exact exists_organisation_iff.mpr
      (hregistered holding.reference
        (Section.mem_references.mpr (.inl ⟨g, hg, .inr ⟨holding, hh, rfl⟩⟩)))
  · intro holding hh
    exact exists_organisation_iff.mpr
      (hregistered holding.reference (Section.mem_references.mpr (.inr ⟨holding, hh, rfl⟩)))

/-! ## Calls in place -/

namespace Drafting

section Running

variable {α β : Type}

@[simp]
theorem run_bind (x : Drafting α) (f : α → Drafting β) (d : Draft) :
    (x >>= f).run d = match x.run d with
      | (.ok a, d') => (f a).run d'
      | (.error e, d') => (.error e, d') := by
  show (match x.run d with | (a, d') => ExceptT.bindCont f a d') = _
  rcases x.run d with ⟨_ | _, _⟩ <;> rfl

@[simp]
theorem run_pure (a : α) (d : Draft) : (pure a : Drafting α).run d = (.ok a, d) := rfl

@[simp]
theorem run_get (d : Draft) : (get : Drafting Draft).run d = (.ok d, d) := rfl

@[simp]
theorem run_throw (f : Fault) (d : Draft) : (throw f : Drafting α).run d = (.error f, d) := rfl

@[simp]
theorem run_modify (g : Draft → Draft) (d : Draft) :
    (modify g : Drafting PUnit).run d = (.ok (), g d) := rfl

/-- A check that only reads leaves the draft alone. -/
@[simp]
theorem run_liftM (x : Except Fault α) (d : Draft) : (liftM x : Drafting α).run d = (x, d) := by
  cases x <;> rfl

theorem discard_eq (x : Drafting α) : discard x = x >>= fun _ => pure () := rfl

end Running

/-- What is left of a draft when something was to be made of it. -/
def outcome (d : Draft) : Except Fault Draft → Except Fault Unit × Draft
  | .ok d' => (.ok (), d')
  | .error f => (.error f, d)

/-- A call writes the whole of what it makes of the draft, or nothing. -/
theorem run_perform (c : Call) (d : Draft) : (perform c).run d = outcome d (d.effect c) := by
  cases c with
  | addLicense l =>
    rw [Draft.effect, Draft.addLicense, perform, discard_eq, addLicense]
    by_cases h : d.licenses.contains l.id <;> simp [h, outcome]
  | addOrganisation o =>
    rw [Draft.effect, Draft.addOrganisation, perform, discard_eq, addOrganisation]
    by_cases h : d.organisations.contains o.id <;> simp [h, outcome]
  | addSection s =>
    rw [Draft.effect, Draft.addSection, perform, addSection]
    by_cases h : d.sections.contains s.name
    · simp [h, outcome]
    · cases hg : d.checkGrants s.grants with
      | error f => simp [h, hg]; rfl
      | ok _ =>
        cases hh : d.checkHoldings s.publicDomain.toList with
        | error f => simp [h, hg, hh]; rfl
        | ok _ => simp [h, hg, hh]; rfl
  | addNotice | setPrimaryNotice | setPrimaryCopyrightNotice => rfl

variable {d : Draft}

theorem next_of_error {c : Call} {f : Fault} (h : ((perform c).run d).1 = .error f) :
    next d c = d := by
  rw [next, run_perform] at *
  cases hc : d.effect c with
  | error f => rfl
  | ok d' => simp [hc, outcome] at h

theorem next_cases (d : Draft) (c : Call) : next d c = d ∨ d.effect c = .ok (next d c) := by
  rw [next, run_perform]
  cases d.effect c with
  | error f => exact .inl rfl
  | ok d' => exact .inr rfl

theorem keptIn_next (d : Draft) (c : Call) : d.KeptIn (next d c) := by
  rcases next_cases d c with h | h
  · rw [h]
    exact .refl d
  · exact .effect h

theorem consistent_next (hd : d.Consistent) (c : Call) : (next d c).Consistent := by
  rcases next_cases d c with h | h
  · rwa [h]
  · exact hd.effect h

theorem keptIn_foldl (cs : List Call) (d : Draft) : d.KeptIn (cs.foldl next d) := by
  induction cs generalizing d with
  | nil => exact .refl d
  | cons c cs ih => exact (keptIn_next d c).trans (ih (next d c))

theorem consistent_foldl (hd : d.Consistent) (cs : List Call) : (cs.foldl next d).Consistent := by
  induction cs generalizing d with
  | nil => exact hd
  | cons c cs ih => exact ih (consistent_next hd c)

theorem run_addSection (s : Section) (d : Draft) :
    (addSection s).run d =
      if d.sections.contains s.name then (.error (.duplicateDirectory s.name), d)
      else match s.references.find? fun r => !d.registers r with
        | some r => (.error r.fault, d)
        | none => (.ok (), { d with sections := d.sections.insertNew s }) := by
  have h : (addSection s).run d = outcome d (d.addSection s) := run_perform (.addSection s) d
  rw [h, Draft.addSection_eq, Draft.check]
  split
  · rfl
  · cases s.references.find? fun r => !d.registers r <;> rfl

theorem addSection_duplicate_iff {s : Section} :
    ((addSection s).run d).1 = .error (.duplicateDirectory s.name) ↔
      d.sections.contains s.name = true := by
  rw [run_addSection]
  split
  · simp_all
  · rename_i h
    cases s.references.find? fun r => !d.registers r <;>
      simp [h, Reference.fault_ne_duplicateDirectory]

/-- Whatever the calls, and whichever of them fail, what they leave is consistent and stays as it
is. A section is refused for its name if that is taken, and otherwise for the first of its
references that is not registered. -/
theorem draftOf_keeps (cs more : List Call) :
    (draftOf cs).Consistent ∧ (draftOf cs).KeptIn (draftOf (cs ++ more)) ∧
      (∀ c f, ((perform c).run (draftOf cs)).1 = .error f →
        draftOf (cs ++ [c]) = draftOf cs) ∧
      (∀ s, ((addSection s).run (draftOf cs)).1 = .error (.duplicateDirectory s.name) ↔
        (draftOf cs).sections.contains s.name = true) ∧
      (∀ s, (draftOf cs).sections.contains s.name = false →
        (addSection s).run (draftOf cs) =
          match s.references.find? fun r => !(draftOf cs).registers r with
          | some r => (.error r.fault, draftOf cs)
          | none => (.ok (), { draftOf cs with
              sections := (draftOf cs).sections.insertNew s })) ∧
      (∀ l o, (∃ desc, (draftOf cs).finish l o = .ok desc) ↔
        (draftOf cs).licenses.contains l = true ∧
          ∀ id ∈ o, (draftOf cs).organisations.contains id = true) ∧
      ∀ l o desc, (draftOf cs).finish l o = .ok desc →
        desc.sections = (draftOf cs).sections ∧ ∀ s ∈ desc.sections, desc.Resolves s := by
  have hconsistent : (draftOf cs).Consistent := consistent_foldl Draft.consistent_empty cs
  have happend : ∀ cs', draftOf (cs ++ cs') = cs'.foldl next (draftOf cs) := fun cs' =>
    List.foldl_append
  refine ⟨hconsistent, ?_, ?_, fun s => addSection_duplicate_iff, ?_,
    fun l o => Draft.exists_finish_iff, ?_⟩
  · rw [happend]
    exact keptIn_foldl more (draftOf cs)
  · intro c f hf
    rw [happend]
    exact next_of_error hf
  · intro s hs
    rw [run_addSection, hs]
    rfl
  · intro l o desc hfinish
    have hsections : desc.sections = (draftOf cs).sections := by
      obtain ⟨_, _, -, -, rfl⟩ := Draft.finish_eq_ok_iff.mp hfinish
      rfl
    exact ⟨hsections, fun s hs => hconsistent.resolves hfinish (hsections ▸ hs)⟩

/-- A directory that is all under one license, and held by one organisation. -/
def granted : Section :=
  ⟨"a", [⟨⟨"L", "License", "", false, "", ∅⟩, none, ∅,
    ⟨[⟨⟨"O", "Organisation", ""⟩, default⟩], List.pairwise_singleton _ _⟩, by decide⟩], default⟩

def early : List Call := [.addLicense ⟨"L", "License", "", false, "", ∅⟩, .addSection granted]

def late : List Call := [.addOrganisation ⟨"O", "Organisation", ""⟩, .addSection granted]

/-- A section that comes before its organisation is refused, and taken afterwards. -/
theorem draftOf_keeps_refused :
    ((addSection granted).run (draftOf early)).1 = .error (.unknownOrganisation "O") ∧
      draftOf (early ++ [.addSection granted]) = draftOf early ∧
      (draftOf early).KeptIn (draftOf (early ++ late)) ∧
      ∃ desc : Descriptor, (draftOf (early ++ late)).finish "L" (some "O") = .ok desc ∧
        granted ∈ desc.sections ∧ desc.Resolves granted := by
  have hrefused : ((addSection granted).run (draftOf early)).1 =
      .error (.unknownOrganisation "O") := rfl
  have hmem : granted ∈ (draftOf (early ++ late)).sections := List.mem_of_elem_eq_true rfl
  obtain ⟨-, hkept, hsame, -⟩ := draftOf_keeps early late
  obtain ⟨-, -, -, -, -, hfinish, hresolves⟩ := draftOf_keeps (early ++ late) []
  obtain ⟨desc, hdesc⟩ := (hfinish "L" (some "O")).mpr ⟨rfl, fun _ hid => by cases hid; rfl⟩
  obtain ⟨hsections, hall⟩ := hresolves _ _ _ hdesc
  rw [← hsections] at hmem
  exact ⟨hrefused, hsame (.addSection granted) _ hrefused, hkept, desc, hdesc, hmem, hall _ hmem⟩

end Drafting

end LicenseAudit
