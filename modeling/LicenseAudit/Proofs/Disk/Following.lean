import LicenseAudit.Proofs.Disk.Standing
import LicenseAudit.Proofs.Text.Utf8

/-!
# Names that can be followed

A disk is `Legible` when the name of every entry is the bytes of some text. Only then does the text
of a name lead back to its bytes. On such a disk one can `follow` a text with slashes from a
directory: entry by entry, each step being a resolution of its own that goes through links.

The text of an entry's name is never a dot and contains no slash, so a text that is put together
from names by slashes comes apart into the same names again (`pieces_write_slash`).
-/

set_option autoImplicit false

namespace LicenseAudit

namespace Disk

/-- The name is the bytes of a text. -/
def Name.IsText (n : Name) : Prop := ∃ text, n.bytes = Utf8.write text

/-- The name of every entry is the bytes of a text. -/
def Legible (d : Disk) : Prop := ∀ p, ∀ e ∈ d.entries p, e.1.IsText

/-- Where the entry of this name leads, through links. -/
def goTo (d : Disk) (here : Path) (bytes : List UInt8) : Except Refusal Path :=
  match Name.ofBytes? bytes with
  | some n => d.resolve (.ofPath (n :: here))
  | none => .error .notFound

/-- Follows a text with slashes from a directory, entry by entry. -/
def follow (d : Disk) (here : Path) (text : String) : Except Refusal Path :=
  (Route.pieces (Utf8.write text)).foldlM d.goTo here

/-! ## The text of a name -/

theorem Name.IsText.write_text {n : Name} (h : n.IsText) : Utf8.write n.text = n.bytes := by
  obtain ⟨text, ht⟩ := h
  rw [Name.text, ht, Utf8.read_write]

theorem Name.slash_not_mem (n : Name) : slash ∉ n.bytes := by
  have h := n.valid
  simp only [isName, Bool.and_eq_true, Bool.not_eq_true', List.contains_eq_mem,
    decide_eq_false_iff_not] at h
  exact h.1.1.2

/-- Whether it is text or not, a name is read as one without a slash. -/
theorem Name.slash_not_mem_text (n : Name) : '/' ∉ n.text.toList := by
  rw [text, Utf8.read, String.toList_ofList]
  intro h
  have hbyte : UInt8.ofNat '/'.toNat ∈ n.bytes :=
    Utf8.mem_of_mem_readFrom (by decide) (by decide) (by simp) h
  exact n.slash_not_mem hbyte

theorem Name.bytes_ne_dot (n : Name) : n.bytes ≠ [46] := by
  have h := n.valid
  simp only [isName, Bool.and_eq_true, bne_iff_ne] at h
  exact h.1.1.1.1.2

theorem ofBytes?_bytes (n : Name) : Name.ofBytes? n.bytes = some n := by
  rw [Name.ofBytes?, dif_pos n.valid]

theorem write_dot : Utf8.write "." = [46] := by
  rw [Utf8.write_eq]
  rfl

theorem write_slash : Utf8.write "/" = [slash] := by
  rw [Utf8.write_eq]
  rfl

theorem Name.IsText.text_ne_dot {n : Name} (h : n.IsText) : n.text ≠ "." := by
  intro hdot
  have hw := h.write_text
  rw [hdot, write_dot] at hw
  exact n.bytes_ne_dot hw.symm

/-! ## Coming apart at slashes -/

theorem pieces_ne_nil (bytes : List UInt8) : Route.pieces bytes ≠ [] := by
  cases bytes with
  | nil => exact List.cons_ne_nil _ _
  | cons b bytes =>
    rw [Route.pieces]
    split
    · exact List.cons_ne_nil _ _
    · split <;> exact List.cons_ne_nil _ _

theorem pieces_of_not_mem {bytes : List UInt8} (h : slash ∉ bytes) :
    Route.pieces bytes = [bytes] := by
  induction bytes with
  | nil => rfl
  | cons b bytes ih =>
    rw [List.mem_cons, not_or] at h
    rw [Route.pieces, if_neg (Ne.symm h.1), ih h.2]

theorem pieces_append_slash (front back : List UInt8) :
    Route.pieces (front ++ slash :: back) = Route.pieces front ++ Route.pieces back := by
  induction front with
  | nil =>
    show Route.pieces (slash :: back) = [] :: Route.pieces back
    rw [Route.pieces, if_pos rfl]
  | cons b front ih =>
    rw [List.cons_append, Route.pieces, Route.pieces, ih]
    split
    · rfl
    · cases hp : Route.pieces front with
      | nil => exact absurd hp (pieces_ne_nil front)
      | cons piece pieces => rfl

theorem pieces_write_name {n : Name} (h : n.IsText) :
    Route.pieces (Utf8.write n.text) = [n.bytes] := by
  rw [h.write_text, pieces_of_not_mem n.slash_not_mem]

theorem pieces_write_slash {n : Name} (h : n.IsText) (front : String) :
    Route.pieces (Utf8.write (front ++ "/" ++ n.text)) =
      Route.pieces (Utf8.write front) ++ [n.bytes] := by
  rw [Utf8.write_append, Utf8.write_append, write_slash, List.append_assoc, List.singleton_append,
    pieces_append_slash, pieces_write_name h]

/-! ## Following -/

variable {d : Disk}

theorem goTo_bytes (here : Path) (n : Name) :
    d.goTo here n.bytes = d.resolve (.ofPath (n :: here)) := by
  rw [goTo, ofBytes?_bytes]

theorem follow_name {n : Name} (h : n.IsText) (here : Path) :
    d.follow here n.text = d.resolve (.ofPath (n :: here)) := by
  rw [follow, pieces_write_name h, List.foldlM_cons, goTo_bytes]
  cases d.resolve (.ofPath (n :: here)) <;> rfl

theorem follow_slash {n : Name} (h : n.IsText) {here there : Path} {front : String}
    (hf : d.follow here front = .ok there) :
    d.follow here (front ++ "/" ++ n.text) = d.resolve (.ofPath (n :: there)) := by
  rw [follow] at hf
  rw [follow, pieces_write_slash h, List.foldlM_append, hf]
  change ([n.bytes].foldlM d.goTo there) = _
  rw [List.foldlM_cons, goTo_bytes]
  cases d.resolve (.ofPath (n :: there)) <;> rfl

/-- Legibility is a matter of the names in the table. -/
theorem legible_of_nodes (h : ∀ entry ∈ d.nodes.toList, ∀ n ∈ entry.1, n.IsText) :
    d.Legible := by
  intro p e he
  obtain ⟨entry, hm, hentry⟩ := List.mem_filterMap.mp he
  obtain ⟨path, node⟩ := entry
  cases path with
  | nil => cases hentry
  | cons n above =>
    simp only [entryOf?] at hentry
    split at hentry
    · cases hentry
      exact h _ hm n List.mem_cons_self
    · cases hentry

end Disk

end LicenseAudit
