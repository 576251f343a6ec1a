import LicenseAudit.Proofs.Json.RoundTrip
import LicenseAudit.Proofs.Ordered.Arrangement
import LicenseAudit.Report.Json

/-!
# Reading reports back

A report that is written as JSON is read back as it was, whatever its locations are called: with the
buckets it has, empty ones included, and without those it has not. What the reader takes beyond what
is written disappears when a report is read and written once, and then nothing changes any more.
-/

set_option autoImplicit false

namespace LicenseAudit

namespace Location

theorem ofJson?_toJson (l : Location) : ofJson? l.toJson = some l := by
  have hdirectory : member? [(.text "directory", .ofText l.directory),
      (.text "resource", .ofText l.resource)] "directory" = some (.ofText l.directory) := by
    simp [member?]
  have hresource : member? [(.text "directory", .ofText l.directory),
      (.text "resource", .ofText l.resource)] "resource" = some (.ofText l.resource) := by
    simp [member?]
  unfold toJson Json.ofMembers
  simp only [List.map_cons, List.map_nil, ofJson?, hdirectory, hresource]
  simp [Json.ofText, textOfJson?]

theorem mapM_ofJson?_toJson (ls : List Location) :
    (ls.map toJson).mapM ofJson? = some ls := by
  induction ls with
  | nil => rfl
  | cons l ls ih => simp [ofJson?_toJson, ih]

theorem textual_toJson (l : Location) : l.toJson.Textual := by
  apply Json.Textual.object
  · simp
  · simpa [Json.ofText] using ⟨.string _, .string _⟩

end Location

namespace Report

def memberOf (b : IssueKind × Locations) : JsonText × Json :=
  (.text b.1.name, .array (b.2.toList.map Location.toJson))

theorem toJson_eq (r : Report) : r.toJson = .object (r.buckets.map memberOf) := by
  unfold toJson Json.ofMembers
  rw [List.map_map]
  rfl

theorem textual_toJson (r : Report) : r.toJson.Textual := by
  rw [toJson_eq]
  apply Json.Textual.object
  · intro m hm
    obtain ⟨b, -, rfl⟩ := List.mem_map.mp hm
    exact ⟨b.1.name, rfl⟩
  · intro m hm
    obtain ⟨b, -, rfl⟩ := List.mem_map.mp hm
    apply Json.Textual.array
    intro j hj
    obtain ⟨l, -, rfl⟩ := List.mem_map.mp hj
    exact l.textual_toJson

theorem readMember_memberOf (r : Report) (b : IssueKind × Locations) :
    r.readMember (memberOf b) = some (r.setBucket b.1 b.2) := by
  simp only [memberOf, readMember, IssueKind.ofName?_name, Location.mapM_ofJson?_toJson,
    Option.bind_eq_bind, Option.bind_some, SortedBy.ofList_toList]
  rfl

theorem foldlM_readMember (bs : List (IssueKind × Locations)) (r : Report) :
    (bs.map memberOf).foldlM readMember r =
      some (bs.foldl (fun r b => r.setBucket b.1 b.2) r) := by
  induction bs generalizing r with
  | nil => rfl
  | cons b bs ih =>
    rw [List.map_cons, List.foldlM_cons, readMember_memberOf]
    exact ih _

/-- Setting some kinds' buckets to those of a report takes these from it, as far as it has them, and
leaves the others. -/
theorem bucket?_foldl_setBucket (r s : Report) (ks : List IssueKind) (j : IssueKind) :
    ((ks.filterMap fun k => (r.bucket? k).map (k, ·)).foldl
        (fun s b => s.setBucket b.1 b.2) s).bucket? j =
      if j ∈ ks then (r.bucket? j).or (s.bucket? j) else s.bucket? j := by
  induction ks generalizing s with
  | nil => rfl
  | cons k ks ih =>
    cases hk : r.bucket? k with
    | none =>
      rw [List.filterMap_cons_none (by rw [hk]; rfl), ih]
      by_cases hj : j = k
      · simp [hj, hk]
      · simp [hj]
    | some ls =>
      rw [List.filterMap_cons_some (by rw [hk]; rfl), List.foldl_cons, ih, bucket?_setBucket]
      by_cases hj : j = k
      · simp [hj, hk]
      · simp [hj]

theorem foldl_buckets (r : Report) : r.buckets.foldl (fun s b => s.setBucket b.1 b.2) bare = r := by
  apply ext_bucket?
  intro k
  unfold buckets
  rw [bucket?_foldl_setBucket, if_pos (IssueKind.mem_all k)]
  cases k <;> exact Option.or_none

theorem ofJsonText?_toJsonText (r : Report) : ofJsonText? r.toJsonText = some r := by
  unfold ofJsonText? toJsonText
  rw [Json.read?_text r.textual_toJson, toJson_eq]
  show (r.buckets.map memberOf).foldlM readMember bare = some r
  rw [foldlM_readMember, foldl_buckets]

/-- The text that results when a report is read from a text and written again. -/
def rewrite? (s : String) : Option String := (ofJsonText? s).map toJsonText

/-- Every report is read back from what it is written as. Whatever a report was read from, what it
is then written as stays the same when it is read and written again. -/
theorem json_round_trips :
    (∀ r : Report, ofJsonText? r.toJsonText = some r) ∧
      ∀ s t : String, rewrite? s = some t → rewrite? t = some t := by
  constructor
  · exact ofJsonText?_toJsonText
  · intro s t h
    obtain ⟨r, -, rfl⟩ := Option.map_eq_some_iff.mp h
    rw [rewrite?, ofJsonText?_toJsonText]
    rfl

/-- A text as no report is written: a pair, locations out of order, an escape that is not needed and
a member that no location has. -/
def handwritten : String :=
  "\x7b\"DUPLICATE\": [[\"b\", \"\\u00e9\"], " ++
    "\x7b\"resource\": \"\\\"\", \"size\": 4, \"directory\": \"a\"\x7d]\x7d"

def understood : Report := ⟨none, none, some (.ofList [⟨"a", "\""⟩, ⟨"b", "é"⟩]), none⟩

theorem json_round_trips_handwritten :
    rewrite? handwritten = some understood.toJsonText ∧
      rewrite? understood.toJsonText = some understood.toJsonText := by
  have hread : rewrite? handwritten = some understood.toJsonText := by decide +kernel
  exact ⟨hread, json_round_trips.2 _ _ hread⟩

end Report

end LicenseAudit
