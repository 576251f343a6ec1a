import LicenseAudit.Disk.Resolve

/-!
# Where steps lead, whoever takes them

Steps can lead to an entry and still not be followed there: a directory on the way may not be
searched, there may be more links than are followed, or a path may be too long to be asked for.
`LeadsTo` leaves all that aside and goes by what is on the disk. Steps are followed nowhere but
where they lead (`leadsTo_of_walk`, `LeadsTo.eq_of_walk`).
-/

set_option autoImplicit false

namespace LicenseAudit

namespace Disk

/-- From a directory, through so many links, steps lead to an entry. -/
inductive LeadsTo (d : Disk) : Nat → Path → List Step → Path → Prop
  | here (p : Path) : LeadsTo d 0 p [] p
  | directory {links : Nat} {p q : Path} {rest : List Step} (way : LeadsTo d links p rest q) :
      LeadsTo d links p (.directory :: rest) q
  | stay {links : Nat} {p q : Path} {rest : List Step} (way : LeadsTo d links p rest q) :
      LeadsTo d links p (.stay :: rest) q
  | up {links : Nat} {p q : Path} {rest : List Step} (way : LeadsTo d links p.tail rest q) :
      LeadsTo d links p (.up :: rest) q
  | file {p : Path} {n : Name} {readable : Bool} {content : ByteArray}
      (entry : d.node? (n :: p) = some (.file readable content)) :
      LeadsTo d 0 p [.down n] (n :: p)
  | down {links : Nat} {p q : Path} {n : Name} {rest : List Step} {a : Access}
      (entry : d.node? (n :: p) = some (.directory a)) (way : LeadsTo d links (n :: p) rest q) :
      LeadsTo d links p (.down n :: rest) q
  | through {links : Nat} {p q : Path} {n : Name} {rest : List Step} {target : Route}
      (entry : d.node? (n :: p) = some (.link target))
      (way : LeadsTo d links (if target.absolute then [] else p) (target.steps ++ rest) q) :
      LeadsTo d (links + 1) p (.down n :: rest) q

variable {d : Disk}

theorem leadsTo_of_advance {m : Manner} {follow : Path → List Step → Except Refusal Path}
    (hf : ∀ here steps q, follow here steps = .ok q → ∃ links, d.LeadsTo links here steps q)
    {steps : List Step} {here q : Path} (h : d.advance m follow here steps = .ok q) :
    ∃ links, d.LeadsTo links here steps q := by
  induction steps generalizing here with
  | nil =>
    cases h
    exact ⟨0, .here _⟩
  | cons s rest ih =>
    cases s with
    | directory =>
      obtain ⟨links, way⟩ := ih h
      exact ⟨links, .directory way⟩
    | stay =>
      simp only [advance] at h
      split at h
      · obtain ⟨links, way⟩ := ih h
        exact ⟨links, .stay way⟩
      · cases h
    | up =>
      simp only [advance] at h
      split at h
      · obtain ⟨links, way⟩ := ih h
        exact ⟨links, .up way⟩
      · cases h
    | overlong =>
      simp only [advance] at h
      split at h <;> cases h
    | down n =>
      simp only [advance] at h
      split at h
      · cases h
      split at h
      · cases h
      cases hn : d.node? (n :: here) with
      | none =>
        rw [hn] at h
        cases h
      | some node =>
        rw [hn] at h
        cases node with
        | file readable content =>
          simp only at h
          split at h
          · subst rest
            cases h
            exact ⟨0, .file hn⟩
          · cases h
        | directory a =>
          obtain ⟨links, way⟩ := ih h
          exact ⟨links, .down hn way⟩
        | link target =>
          obtain ⟨links, way⟩ := hf _ _ _ h
          exact ⟨links + 1, .through hn way⟩

theorem leadsTo_of_walk {m : Manner} {limit : Nat} {steps : List Step} {here q : Path}
    (h : d.walk m limit here steps = .ok q) : ∃ links, d.LeadsTo links here steps q := by
  induction limit generalizing here steps q with
  | zero => exact leadsTo_of_advance (fun _ _ _ hf => by cases hf) h
  | succ limit ih => exact leadsTo_of_advance (fun _ _ _ hf => ih hf) h

theorem walk_nil {m : Manner} {links : Nat} {p : Path} : d.walk m links p [] = .ok p := by
  cases links <;> rfl

/-! ## Following, step by step -/

section Walk

variable {m : Manner} {limit : Nat} {here : Path} {rest : List Step} {n : Name}

theorem walk_directory : d.walk m limit here (.directory :: rest) = d.walk m limit here rest := by
  cases limit <;> rfl

theorem walk_stay :
    d.walk m limit here (.stay :: rest) =
      if d.searchable here then d.walk m limit here rest else .error .denied := by
  cases limit <;> rfl

theorem walk_up :
    d.walk m limit here (.up :: rest) =
      if d.searchable here then d.walk m limit here.tail rest else .error .denied := by
  cases limit <;> rfl

theorem walk_down_file {readable : Bool} {content : ByteArray}
    (hn : d.node? (n :: here) = some (.file readable content)) :
    d.walk m limit here [.down n] =
      if !m.gets (n :: here) then .error .tooLong
      else if !d.searchable here then .error .denied
      else .ok (n :: here) := by
  cases limit <;> simp only [walk, advance, hn, if_true]

theorem walk_down_directory {a : Access} (hn : d.node? (n :: here) = some (.directory a)) :
    d.walk m limit here (.down n :: rest) =
      if !m.gets (n :: here) then .error .tooLong
      else if !d.searchable here then .error .denied
      else d.walk m limit (n :: here) rest := by
  cases limit <;> simp only [walk, advance, hn]

theorem walk_down_link {target : Route} (hn : d.node? (n :: here) = some (.link target)) :
    d.walk m limit here (.down n :: rest) =
      if !m.gets (n :: here) then .error .tooLong
      else if !d.searchable here then .error .denied
      else match limit with
        | 0 => .error .tooManyLinks
        | limit + 1 =>
          d.walk m limit (if target.absolute then [] else here) (target.steps ++ rest) := by
  cases limit <;> simp only [walk, advance, hn]

end Walk

/-- Steps are followed nowhere but where they lead. -/
theorem LeadsTo.eq_of_walk {m : Manner} {links limit : Nat} {p q q' : Path} {steps : List Step}
    (h : d.LeadsTo links p steps q) (hw : d.walk m limit p steps = .ok q') : q' = q := by
  induction h generalizing limit with
  | here =>
    rw [walk_nil] at hw
    cases hw
    rfl
  | directory _ ih =>
    rw [walk_directory] at hw
    exact ih hw
  | stay _ ih =>
    rw [walk_stay] at hw
    split at hw
    · exact ih hw
    · cases hw
  | up _ ih =>
    rw [walk_up] at hw
    split at hw
    · exact ih hw
    · cases hw
  | file entry =>
    rw [walk_down_file entry] at hw
    split at hw
    · cases hw
    split at hw
    · cases hw
    · cases hw
      rfl
  | down entry _ ih =>
    rw [walk_down_directory entry] at hw
    split at hw
    · cases hw
    split at hw
    · cases hw
    · exact ih hw
  | through entry _ ih =>
    rw [walk_down_link entry] at hw
    split at hw
    · cases hw
    split at hw
    · cases hw
    cases limit with
    | zero => cases hw
    | succ limit => exact ih hw

end Disk

end LicenseAudit
