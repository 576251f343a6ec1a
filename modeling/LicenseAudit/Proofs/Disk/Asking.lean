import LicenseAudit.Proofs.Disk.Standing

/-!
# Asking for entries by their paths

A path is `Askable` when the disk can be asked for it: every directory above may be searched, and
neither the path nor any above it is too long. Whatever path is found out by asking is askable
itself (`askable_of_canonical`), and along an askable path the disk can be asked again, up to the
last directory and one step more (`canonical_entry`). Compared with going from entry to entry only
the length of a path can get in the way (`canonical_of_resolve`).
-/

set_option autoImplicit false

namespace LicenseAudit

namespace Disk

/-- The disk can be asked for what is at this path, and for everything above it. -/
def Askable (d : Disk) : Path → Prop
  | [] => True
  | n :: p => Path.fits (n :: p) = true ∧ d.searchable p = true ∧ d.Askable p

variable {d : Disk}

theorem isDirectory_of_searchable {p : Path} (h : d.searchable p = true) :
    d.isDirectory p = true := by
  unfold searchable at h
  unfold isDirectory
  split at h
  · simp [*]
  · cases h

theorem Askable.tail {p : Path} (h : d.Askable p) : d.Askable p.tail := by
  cases p with
  | nil => trivial
  | cons n p => exact h.2.2

theorem Askable.stands_tail {p : Path} (h : d.Askable p) : d.Stands p.tail := by
  induction p with
  | nil => trivial
  | cons n p ih => exact .of_tail (isDirectory_of_searchable h.2.1) (ih h.2.2)

/-! ## What is found out by asking -/

section Keeping

variable {m : Manner} {P : Path → Prop}

theorem advance_keeps {follow : Path → List Step → Except Refusal Path}
    (hup : ∀ p, P p → P p.tail)
    (hdown : ∀ n p, m.gets (n :: p) = true → d.searchable p = true → P p → P (n :: p))
    (hfollow : ∀ {target : Route} {p steps q}, P p →
      follow (if target.absolute then [] else p) steps = .ok q → P q)
    {steps : List Step} {p q : Path} (hp : P p) (h : d.advance m follow p steps = .ok q) : P q := by
  induction steps generalizing p with
  | nil =>
    cases h
    exact hp
  | cons s rest ih =>
    cases s with
    | directory => exact ih hp h
    | stay =>
      simp only [advance] at h
      split at h
      · exact ih hp h
      · cases h
    | up =>
      simp only [advance] at h
      split at h
      · exact ih (hup p hp) h
      · cases h
    | overlong =>
      simp only [advance] at h
      split at h <;> cases h
    | down n =>
      simp only [advance] at h
      split at h
      · cases h
      rename_i hgets
      split at h
      · cases h
      rename_i hsearch
      rw [Bool.not_eq_true, Bool.not_eq_false'] at hgets hsearch
      cases hn : d.node? (n :: p) with
      | none =>
        rw [hn] at h
        cases h
      | some node =>
        rw [hn] at h
        cases node with
        | file readable content =>
          simp only at h
          split at h
          · cases h
            exact hdown n p hgets hsearch hp
          · cases h
        | directory a => exact ih (hdown n p hgets hsearch hp) h
        | link target => exact hfollow hp h

/-- What holds of the root, of a directory above, and of whatever a walk goes down to, holds
wherever the walk comes to. -/
theorem walk_keeps (hroot : P []) (hup : ∀ p, P p → P p.tail)
    (hdown : ∀ n p, m.gets (n :: p) = true → d.searchable p = true → P p → P (n :: p))
    {limit : Nat} {steps : List Step} {p q : Path} (hp : P p)
    (h : d.walk m limit p steps = .ok q) : P q := by
  induction limit generalizing p steps q with
  | zero => exact advance_keeps hup hdown (fun _ hf => by cases hf) hp h
  | succ limit ih =>
    refine advance_keeps hup hdown (fun {target} _ _ _ hp hf => ih ?_ hf) hp h
    split
    · exact hroot
    · exact hp

end Keeping

theorem askable_of_canonical {r : Route} {q : Path} (h : d.canonical r = .ok q) : d.Askable q := by
  have hw : d.walk .byPath linkLimit [] r.steps = .ok q := h
  have hroot : d.Askable [] := trivial
  exact @walk_keeps d .byPath d.Askable hroot (fun _ hp => hp.tail)
    (fun n p hfits hsearch hp => ⟨hfits, hsearch, hp⟩) _ _ _ _ hroot hw

/-! ## Asking again -/

/-- Down an askable path to a directory, and on from there. -/
theorem Askable.walk_eq {p : Path} (hp : d.Askable p) (hd : d.isDirectory p = true) {m : Manner}
    {limit : Nat} {rest : List Step} :
    d.walk m limit [] (p.reverse.map .down ++ rest) = d.walk m limit p rest := by
  induction p generalizing rest with
  | nil => rfl
  | cons n p ih =>
    obtain ⟨a, hn⟩ := node?_of_isDirectory hd
    obtain ⟨hfits, hsearch, hp⟩ := hp
    have hgets : m.gets (n :: p) = true := by
      cases m with
      | stepwise => rfl
      | byPath => exact hfits
    rw [List.reverse_cons, List.map_append, List.append_assoc,
      ih hp (isDirectory_of_searchable hsearch)]
    show d.walk m limit p (.down n :: rest) = _
    simp [walk_down_directory hn, hgets, hsearch]

theorem canonical_entry {n : Name} {p : Path} (hp : d.Askable p) (hd : d.isDirectory p = true) :
    d.canonical (.ofPath (n :: p)) = d.walk .byPath linkLimit p [.down n] := by
  show d.walk .byPath linkLimit [] ((n :: p).reverse.map .down) = _
  rw [List.reverse_cons, List.map_append, hp.walk_eq hd]
  rfl

/-- A subdirectory is found out by asking unless its path is too long or it may not be reached. -/
theorem canonical_directory {n : Name} {p : Path} {a : Access} (hp : d.Askable p)
    (hd : d.isDirectory p = true) (hn : d.node? (n :: p) = some (.directory a)) :
    d.canonical (.ofPath (n :: p)) =
      if !Path.fits (n :: p) then .error .tooLong
      else if !d.searchable p then .error .denied
      else .ok (n :: p) := by
  rw [canonical_entry hp hd, walk_down_directory hn, walk_nil]
  rfl

/-! ## Asking and going -/

/-- Something is there whose path is too long to ask for it. -/
def Overlong (d : Disk) : Prop := ∃ p node, d.node? p = some node ∧ p.fits = false

theorem advance_byPath_of_stepwise {f g : Path → List Step → Except Refusal Path}
    (hfg : ∀ p steps q, g p steps = .ok q →
      f p steps = .ok q ∨ f p steps = .error .tooLong ∧ d.Overlong)
    {p q : Path} {steps : List Step} (h : d.advance .stepwise g p steps = .ok q) :
    d.advance .byPath f p steps = .ok q ∨
      d.advance .byPath f p steps = .error .tooLong ∧ d.Overlong := by
  induction steps generalizing p with
  | nil => exact .inl h
  | cons s rest ih =>
    cases s with
    | directory => exact ih h
    | stay =>
      simp only [advance] at h ⊢
      split at h
      · rename_i hs
        simpa only [hs, if_true] using ih h
      · cases h
    | up =>
      simp only [advance] at h ⊢
      split at h
      · rename_i hs
        simpa only [hs, if_true] using ih h
      · cases h
    | overlong =>
      simp only [advance] at h
      split at h <;> cases h
    | down n =>
      simp only [advance, Manner.gets, Bool.not_true, Bool.false_eq_true, if_false] at h ⊢
      split at h
      · cases h
      rename_i hs
      cases hn : d.node? (n :: p) with
      | none => simp [hn] at h
      | some node =>
        -- there is something at this path, so it can only be too long to ask for it
        by_cases hf : Path.fits (n :: p) = true
        · simp only [hn, hs, hf, Bool.not_true, Bool.false_eq_true, if_false] at h ⊢
          cases node with
          | file readable content => exact .inl h
          | directory a => exact ih h
          | link target => exact hfg _ _ _ h
        · rw [Bool.not_eq_true] at hf
          exact .inr ⟨by simp [hf], n :: p, node, hn, hf⟩

/-- Asking by path finds out what going from entry to entry leads to, unless a path is too long. -/
theorem canonical_of_resolve {r : Route} {q : Path} (h : d.resolve r = .ok q) :
    d.canonical r = .ok q ∨ d.canonical r = .error .tooLong ∧ d.Overlong := by
  have hwalk : ∀ (limit : Nat) (p : Path) (steps : List Step) (q : Path),
      d.walk .stepwise limit p steps = .ok q → d.walk .byPath limit p steps = .ok q ∨
        d.walk .byPath limit p steps = .error .tooLong ∧ d.Overlong := by
    intro limit
    induction limit with
    | zero =>
      intro p steps q h
      exact advance_byPath_of_stepwise (fun _ _ _ hg => by cases hg) h
    | succ limit ih =>
      intro p steps q h
      exact advance_byPath_of_stepwise ih h
  exact hwalk linkLimit [] r.steps q h

end Disk

end LicenseAudit
