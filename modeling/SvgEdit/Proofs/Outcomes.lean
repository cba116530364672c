import SvgEdit.Proofs.Reselection

/-!
# Outcomes

A request for the matches of a query succeeds where the text is a document in which an element below the root
satisfies the query. The outcome then tells of as many elements as satisfy it; otherwise it gives the text back.
-/
namespace SvgEdit

/-! ## Elements that satisfy a query -/

/-- An element satisfies every constraint of a query. -/
structure Query.Satisfied (q : Query) (e : Element) : Prop where
  tag : ∀ tag ∈ q.tag, localName e.name = tag
  id : ∀ id ∈ q.id, e.attribute? idName = some id
  classes : ∀ c ∈ q.classes, c ∈ Text.words ((e.attribute? className).getD [])
  present : ∀ name, (name, none) ∈ q.attributes → ∃ value, e.attribute? name = some value
  equal : ∀ name value, (name, some value) ∈ q.attributes → e.attribute? name = some value

theorem Query.isMatch_eq_true_iff_satisfied {q : Query} {e : Element} : q.isMatch e = true ↔ q.Satisfied e := by
  have present (name : Text) : matchesAttribute e (name, none) = true ↔ ∃ value, e.attribute? name = some value := by
    rw [matchesAttribute, Attributes.has_eq_isSome]
    exact Option.isSome_iff_exists
  rw [isMatch_iff]
  constructor
  · rintro ⟨tag, id, classes, constraints⟩
    refine ⟨tag, id, classes, ?_, ?_⟩
    · intro name member
      exact (present name).mp (constraints _ member)
    · intro name value member
      simpa [matchesAttribute] using constraints _ member
  · rintro ⟨tag, id, classes, bare, equal⟩
    refine ⟨tag, id, classes, ?_⟩
    rintro ⟨name, value⟩ member
    cases value with
    | none => exact (present name).mpr (bare name member)
    | some value => simpa [matchesAttribute] using equal name value member

instance (q : Query) : DecidablePred q.Satisfied := fun _ => decidable_of_iff _ Query.isMatch_eq_true_iff_satisfied

/-- The elements below the root, in document order. -/
def Document.below (d : Document) : List Element := d.root.descendants.map Prod.snd

/-- Those that satisfy a query. -/
def Document.satisfying (d : Document) (q : Query) : List Element := d.below.filter fun e => q.Satisfied e

theorem Document.satisfying_eq_nil_iff {d : Document} {q : Query} :
    d.satisfying q = [] ↔ ¬ ∃ e ∈ d.below, q.Satisfied e := by
  simp [satisfying, List.filter_eq_nil_iff]

theorem Document.length_matchingPaths (d : Document) (q : Query) :
    (matchingPaths d q).length = (d.satisfying q).length := by
  have same : (fun entry : Path × Element => q.isMatch entry.2) = fun entry => decide (q.Satisfied entry.2) := by
    funext entry
    rw [Bool.eq_iff_iff, decide_eq_true_iff]
    exact Query.isMatch_eq_true_iff_satisfied
  rw [matchingPaths, satisfying, below, List.length_map, List.filter_map, List.length_map, same]
  rfl

/-- As many matches are told as elements satisfy the query. -/
theorem Document.length_select (d : Document) (q : Query) : (d.select q).2.length = (d.satisfying q).length := by
  obtain ⟨-, -, count, -⟩ := d.select_spec q
  rw [count, d.length_matchingPaths]

theorem Document.id_ne_nil_of_mem_select {d : Document} {q : Query} {m : Match} (told : m ∈ (d.select q).2) :
    m.id ≠ [] := by
  obtain ⟨-, -, count, found⟩ := d.select_spec q
  obtain ⟨n, inside, rfl⟩ := List.getElem_of_mem told
  rw [count] at inside
  obtain ⟨t, -, here⟩ := found n _ (List.getElem?_eq_getElem inside)
  rw [(List.getElem?_eq_some_iff.mp here).2]
  exact t.getD_id?_ne_nil n

/-! ## What comes of a request -/

/-- Without a document there is a failure. -/
theorem transformMatching_of_error {s : Text} {fault : DocumentFault} (refused : Document.parse s = .error fault)
    (selector : Text) (r : Request) :
    transformMatching s selector r = .failed s ("Failed to parse document: " ++ fault.message) := by
  simp only [transformMatching, refused]

/-- Without a match there is a failure. -/
theorem transformMatching_of_unmatched {s selector : Text} {d : Document} (parsed : Document.parse s = .ok d)
    (unmatched : d.satisfying (Query.parse selector) = []) (r : Request) :
    transformMatching s selector r =
      .failed s ("No elements found matching selector: '" ++ selector.string ++ "'") := by
  have none : (d.select (Query.parse selector)).2 = [] := by
    rw [← List.length_eq_zero_iff, d.length_select, unmatched, List.length_nil]
  simp [transformMatching, parsed, none]

/-- With a match the request is applied. -/
theorem transformMatching_of_matched {s selector : Text} {d : Document} (parsed : Document.parse s = .ok d)
    (matched : d.satisfying (Query.parse selector) ≠ []) (r : Request) :
    transformMatching s selector r =
      ⟨none, s, ((d.select (Query.parse selector)).1.applyToMatches r (d.select (Query.parse selector)).2).source,
        (selectElements s selector).2⟩ := by
  have some : (d.select (Query.parse selector)).2 ≠ [] := by
    rwa [← List.length_pos_iff, d.length_select, List.length_pos_iff]
  simp [transformMatching, selectElements, parsed, some]

/--
A request for the matches of a query succeeds exactly if the text is a document in which an element below the
root satisfies the query. On success nothing failed, one match is told for each such element, each with an
identifier, as selecting alone tells them; on failure the text is given back as it is, and a reason with it.
-/
theorem transformMatching_outcome (s selector : Text) (r : Request) :
    let q := Query.parse selector
    let o := transformMatching s selector r
    (o.success = true ↔ ∃ d, Document.parse s = .ok d ∧ ∃ e ∈ d.below, q.Satisfied e) ∧
    (o.success = true → o.failure = none ∧ o.matched = o.elements.length ∧
      (∀ d, Document.parse s = .ok d → o.matched = (d.satisfying q).length) ∧
      (∀ m ∈ o.elements, m.id ≠ []) ∧ o.elements = (selectElements s selector).2) ∧
    (o.success = false → o.given = s ∧ o.modified = s ∧ o.matched = 0 ∧ o.elements = [] ∧
      ∃ reason, o.failure = some reason) := by
  intro q o
  cases parsed : Document.parse s with
  | error fault =>
    have outcome : o = .failed s _ := transformMatching_of_error parsed selector r
    simp [outcome, Outcome.failed, Outcome.success, Outcome.matched]
  | ok d =>
    by_cases matched : d.satisfying q = []
    · have outcome : o = .failed s _ := transformMatching_of_unmatched parsed matched r
      have none := Document.satisfying_eq_nil_iff.mp matched
      simpa [outcome, Outcome.failed, Outcome.success, Outcome.matched] using none
    · have outcome : o = ⟨none, s, _, _⟩ := transformMatching_of_matched parsed matched r
      have some := not_not.mp fun none => matched (Document.satisfying_eq_nil_iff.mpr none)
      have selected : (selectElements s selector).2 = (d.select q).2 := by simp only [selectElements, parsed, q]
      have count : (selectElements s selector).2.length = (d.satisfying q).length := by
        rw [selected, d.length_select]
      have named : ∀ m ∈ (selectElements s selector).2, m.id ≠ [] := by
        rw [selected]
        exact fun m => Document.id_ne_nil_of_mem_select
      simpa [outcome, Outcome.success, Outcome.matched, count] using ⟨some, named⟩

end SvgEdit
