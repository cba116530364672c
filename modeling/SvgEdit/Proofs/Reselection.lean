import SvgEdit.Proofs.Rereading
import SvgEdit.Proofs.SelectionFrame

/-!
# Selecting again

What was selected is selected again in the text that selecting gives: all matches have identifiers by
then, so nothing more is written. The one query whose matches are lost asks for an empty identifier,
which selecting replaces.
-/
namespace SvgEdit

/-! ## Identifiers in queries -/

/-- The query has the constraint that the identifier is empty. -/
def Query.AsksEmptyId (q : Query) : Prop := (idName, some []) ∈ q.attributes

instance (q : Query) : Decidable q.AsksEmptyId := inferInstanceAs (Decidable (_ ∈ _))

theorem Query.ne_nil_of_takeMarked {mark : Char} {inside : Bool} {s name rest : Text}
    (h : takeMarked mark inside s = some (name, rest)) : name ≠ [] := by
  induction s generalizing inside name rest with
  | nil => cases h
  | cons c s ih =>
    rw [takeMarked] at h
    split at h
    · next begins =>
      obtain ⟨rfl, -⟩ := Prod.mk.inj (Option.some.inj h)
      exact begins.2.2
    · obtain ⟨⟨n, r⟩, later, same⟩ := Option.map_eq_some_iff.mp h
      obtain ⟨rfl, -⟩ := Prod.mk.inj same
      exact ih later

/-- No text asks for an empty identifier by a mark. -/
theorem Query.id_parse_ne (s : Text) : (Query.parse s).id ≠ some [] := by
  rw [Query.parse]
  cases taken : takeMarked '#' false s with
  | none =>
    intro same
    cases same
  | some found =>
    obtain ⟨name, rest⟩ := found
    exact fun same => ne_nil_of_takeMarked taken (Option.some.inj same)

/-! ## Matching after an identifier was written -/

theorem Attributes.has_eq_isSome (as : Attributes) (name : Text) : as.has name = (as.value? name).isSome := by
  rw [Bool.eq_iff_iff, has, value?, Option.isSome_map, List.any_eq_true, List.find?_isSome]

namespace Element

variable (e : Element)

theorem name_withId (place : Nat) : (e.withId place).name = e.name := by
  rw [withId]
  split <;> rfl

theorem attribute?_withId (place : Nat) : (e.withId place).attribute? idName = some (e.id?.getD (madeId place)) := by
  rw [withId_eq_onTag]
  exact e.tag.value?_withId place

theorem attribute?_withId_of_nonempty {id : Text} (own : e.attribute? idName = some id) (nonempty : id ≠ [])
    (place : Nat) : (e.withId place).attribute? idName = some id := by
  have known : e.id? = some id := e.tag.id?_eq_some_iff.mpr ⟨own, nonempty⟩
  rw [attribute?_withId, known]
  rfl

theorem attribute?_withId_of_ne {name : Text} (other : name ≠ idName) {place : Nat} :
    (e.withId place).attribute? name = e.attribute? name := by
  rw [withId]
  split
  · rfl
  · exact Attributes.value?_set_of_ne e.tag.attributes (madeId place) other

end Element

namespace Query

theorem isMatch_iff {q : Query} {e : Element} :
    q.isMatch e = true ↔ (∀ tag ∈ q.tag, localName e.name = tag) ∧ (∀ id ∈ q.id, e.attribute? idName = some id) ∧
      (∀ c ∈ q.classes, c ∈ Text.words ((e.attribute? className).getD [])) ∧
      ∀ constraint ∈ q.attributes, matchesAttribute e constraint = true := by
  simp only [isMatch, Bool.and_eq_true, and_assoc, List.all_eq_true, List.contains_iff_mem]
  cases q.tag <;> cases q.id <;> simp

/-- A constraint looks at the attribute of its name only. -/
theorem matchesAttribute_congr {e e' : Element} {constraint : Text × Option Text}
    (same : e.attribute? constraint.1 = e'.attribute? constraint.1) :
    matchesAttribute e constraint = matchesAttribute e' constraint := by
  obtain ⟨name, value⟩ := constraint
  cases value with
  | none =>
    rw [matchesAttribute, matchesAttribute, Attributes.has_eq_isSome, Attributes.has_eq_isSome]
    exact congrArg Option.isSome same
  | some value => simp only [matchesAttribute, same]

/-- Once its identifier is written, a match is still one unless its identifier has to be empty. -/
theorem isMatch_withId {q : Query} (named : q.id ≠ some []) {e : Element} (matched : q.isMatch e = true)
    (place : Nat) : q.isMatch (e.withId place) = true ↔ ¬ q.AsksEmptyId := by
  have self := e.attribute?_withId place
  obtain ⟨tag, id, classes, constraints⟩ := isMatch_iff.mp matched
  constructor
  · intro still asks
    obtain ⟨-, -, -, constraints'⟩ := isMatch_iff.mp still
    have empty : (e.withId place).attribute? idName = some [] := by simpa [matchesAttribute] using constraints' _ asks
    rw [self] at empty
    exact e.tag.getD_id?_ne_nil place (Option.some.inj empty)
  · intro unasked
    refine isMatch_iff.mpr ⟨?_, ?_, ?_, ?_⟩
    · rw [Element.name_withId]
      exact tag
    · intro i asked
      refine e.attribute?_withId_of_nonempty (id i asked) ?_ place
      rintro rfl
      exact named asked
    · rw [e.attribute?_withId_of_ne (by decide)]
      exact classes
    · rintro ⟨name, value⟩ member
      by_cases same : name = idName
      · -- What is asked of the identifier is that there is one, or a value that is not empty and was kept.
        subst same
        cases value with
        | none =>
          rw [matchesAttribute, Attributes.has_eq_isSome]
          exact congrArg Option.isSome self
        | some value =>
          have found : e.attribute? idName = some value := by simpa [matchesAttribute] using constraints _ member
          have nonempty : value ≠ [] := by
            rintro rfl
            exact unasked member
          simpa [matchesAttribute] using e.attribute?_withId_of_nonempty found nonempty place
      · rw [matchesAttribute_congr (e.attribute?_withId_of_ne same)]
        exact constraints _ member

end Query

/-! ## The second selection -/

/-- Whether an element is a match is decided by its tag. -/
theorem mem_matchingPaths_iff_tags (d : Document) (q : Query) {path : Path} :
    path ∈ matchingPaths d q ↔ path ≠ [] ∧ ∃ t, (path, t) ∈ d.root.tags ∧ q.isMatch ⟨t, .nil⟩ = true := by
  rw [mem_matchingPaths_iff]
  refine and_congr_right fun _ => ⟨?_, ?_⟩
  · rintro ⟨e, leads, matched⟩
    exact ⟨e.tag, d.root.mem_tags_iff.mpr ⟨e, leads, rfl⟩, matched⟩
  · rintro ⟨t, member, matched⟩
    obtain ⟨e, leads, rfl⟩ := d.root.mem_tags_iff.mp member
    exact ⟨e, leads, matched⟩

/-- Whatever is a match afterwards was one before, and it is one unless its identifier has to be empty. -/
theorem mem_matchingPaths_select_iff (d : Document) {q : Query} (named : q.id ≠ some []) {path : Path} :
    path ∈ matchingPaths (d.select q).1 q ↔ path ∈ matchingPaths d q ∧ ¬ q.AsksEmptyId := by
  have written (t : Tag) (n : Nat) : (⟨t, .nil⟩ : Element).withId n = ⟨t.withId n, .nil⟩ := withId_eq_onTag _ n
  constructor
  · intro again
    obtain ⟨long, u, top, matched⟩ := (mem_matchingPaths_iff_tags _ q).mp again
    rcases (mem_tags_select_iff d q).mp top with ⟨n, t, here, member, rfl⟩ | ⟨other, member⟩
    · have before := List.mem_of_getElem? here
      obtain ⟨-, t', member', matched'⟩ := (mem_matchingPaths_iff_tags d q).mp before
      obtain rfl := d.root.tag_unique member member'
      rw [← written] at matched
      exact ⟨before, (Query.isMatch_withId named matched' n).mp matched⟩
    · exact absurd ((mem_matchingPaths_iff_tags d q).mpr ⟨long, u, member, matched⟩) other
  · rintro ⟨before, unasked⟩
    obtain ⟨n, here⟩ := List.mem_iff_getElem?.mp before
    obtain ⟨long, t, member, matched⟩ := (mem_matchingPaths_iff_tags d q).mp before
    have still := (Query.isMatch_withId named matched n).mpr unasked
    rw [written] at still
    have top := (mem_tags_select_iff d q).mpr (.inl ⟨n, t, here, member, rfl⟩)
    exact (mem_matchingPaths_iff_tags _ q).mpr ⟨long, _, top, still⟩

/-- The same elements are matches again, in the same order. -/
theorem matchingPaths_select (d : Document) {q : Query} (named : q.id ≠ some []) :
    matchingPaths (d.select q).1 q = if q.AsksEmptyId then [] else matchingPaths d q := by
  split
  · next asks =>
    rw [List.eq_nil_iff_forall_not_mem]
    exact fun path again => ((mem_matchingPaths_select_iff d named).mp again).2 asks
  · next unasked =>
    refine (pairwise_matchingPaths _ q).eq_of_mem_iff (pairwise_matchingPaths d q) fun path => ?_
    rw [mem_matchingPaths_select_iff d named, and_iff_left unasked]

/-- Where all matches have identifiers, nothing is written. -/
theorem Document.select_eq_self {d : Document} {q : Query}
    (own : ∀ path ∈ matchingPaths d q, ∀ t, (path, t) ∈ d.root.tags → t.id?.isSome = true) : (d.select q).1 = d := by
  obtain ⟨shape, tags, -, -⟩ := d.select_spec q
  refine eq_of_skeleton_of_tags shape ?_
  have kept : ∀ entry ∈ d.root.tags, named 0 (matchingPaths d q) entry = id entry := by
    rintro ⟨path, t⟩ member
    rw [named]
    split
    · next matched =>
      rw [Tag.withId, if_pos (own path matched t member)]
      rfl
    · rfl
  rw [tags, List.map_congr_left kept, List.map_id]

theorem Tag.id?_withId (t : Tag) (place : Nat) : (t.withId place).id? = some (t.id?.getD (madeId place)) :=
  (id?_eq_some_iff _).mpr ⟨t.value?_withId place, t.getD_id?_ne_nil place⟩

/-- Matches are equal when these are: spellings do not count. -/
def Match.unspelled (m : Match) : Match := { m with attributes := m.attributes.unspelled }

theorem Tag.id?_spelled (t : Tag) : t.spelled.id? = t.id? := by
  rw [id?, id?, value?_spelled]

/-- What is told of a match the second time. -/
theorem unspelled_ofTag_again (t : Tag) (place : Nat) :
    (Match.ofTag (t.withId place).spelled place).unspelled = (Match.ofTag t place).unspelled := by
  -- The tag that is read again has an identifier, so nothing is written the second time.
  have own := t.id?_withId place
  rw [← Tag.id?_spelled] at own
  have kept : (t.withId place).spelled.withId place = (t.withId place).spelled := by
    rw [Tag.withId, own]
    rfl
  have named : (t.withId place).spelled.name = t.name := by
    change (t.withId place).bare.name = t.bare.name
    rw [bare_withId]
  rw [Match.ofTag, own, kept, named, Match.ofTag]
  simp only [Match.unspelled, Option.getD_some, Tag.spelled, Attributes.unspelled_spelled]

namespace Document

/-- The document that is selected in again: it is not changed any more. -/
theorem select_spelled_select (d : Document) {q : Query} (named : q.id ≠ some []) :
    ((d.select q).1.spelled.select q).1 = (d.select q).1.spelled := by
  apply select_eq_self
  intro path matched u member
  rw [matchingPaths_spelled, mem_matchingPaths_select_iff d named] at matched
  change (path, u) ∈ (d.select q).1.root.spelled.tags at member
  rw [Element.tags_spelled] at member
  obtain ⟨⟨p, v⟩, listed, same⟩ := List.mem_map.mp member
  obtain ⟨rfl, rfl⟩ := Prod.mk.inj same
  rcases (mem_tags_select_iff d q).mp listed with ⟨n, t, -, -, rfl⟩ | ⟨other, -⟩
  · rw [Tag.id?_spelled, Tag.id?_withId]
    rfl
  · exact absurd matched.1 other

/-- The matches that are told again, if the identifier does not have to be empty. -/
theorem found_spelled_select (d : Document) {q : Query} (named : q.id ≠ some []) (unasked : ¬ q.AsksEmptyId) :
    ((d.select q).1.spelled.select q).2.map Match.unspelled = (d.select q).2.map Match.unspelled := by
  have paths : matchingPaths (d.select q).1.spelled q = matchingPaths d q := by
    rw [matchingPaths_spelled, matchingPaths_select d named, if_neg unasked]
  obtain ⟨-, -, count, told⟩ := d.select_spec q
  obtain ⟨-, -, count', told'⟩ := (d.select q).1.spelled.select_spec q
  rw [paths] at count' told'
  apply List.ext_getElem?
  intro n
  rw [List.getElem?_map, List.getElem?_map]
  cases here : (matchingPaths d q)[n]? with
  | none =>
    have short := List.getElem?_eq_none_iff.mp here
    rw [List.getElem?_eq_none (by omega), List.getElem?_eq_none (by omega)]
  | some path =>
    obtain ⟨t, member, first⟩ := told n path here
    obtain ⟨u, member', second⟩ := told' n path here
    have top : (path, (t.withId n).spelled) ∈ (d.select q).1.spelled.root.tags := by
      change _ ∈ (d.select q).1.root.spelled.tags
      rw [Element.tags_spelled]
      exact List.mem_map_of_mem (f := fun entry => (entry.1, entry.2.spelled))
        ((mem_tags_select_iff d q).mpr (.inl ⟨n, t, here, member, rfl⟩))
    rw [Element.tag_unique _ member' top] at second
    rw [first, second]
    exact congrArg some (unspelled_ofTag_again t n)

theorem found_eq_nil {d : Document} {q : Query} (unmatched : matchingPaths d q = []) : (d.select q).2 = [] := by
  rw [select, unmatched]
  rfl

end Document

/--
Selecting in the text that selecting gave gives that text again, which is a document, and the same
matches; a query that asks for an empty identifier has none any more.
-/
theorem selectElements_again {s : Text} {d : Document} (selector : Text) (parsed : Document.parse s = .ok d)
    (plain : d.PlainNames) :
    let q := Query.parse selector
    let once := selectElements s selector
    let again := selectElements once.1 selector
    (∃ d', Document.parse once.1 = .ok d') ∧ again.1 = once.1 ∧ (q.AsksEmptyId → again.2 = []) ∧
      (¬ q.AsksEmptyId → again.2.map Match.unspelled = once.2.map Match.unspelled) := by
  intro q once again
  have named : q.id ≠ some [] := Query.id_parse_ne selector
  have reread := ((Document.rereadable_of_parse parsed plain).select q).parse_source
  have first : once = ((d.select q).1.source, (d.select q).2) := by
    simp only [once, selectElements, parsed, q]
  have second : again = ((d.select q).1.source, ((d.select q).1.spelled.select q).2) := by
    simp only [again, first, selectElements, reread]
    rw [show Query.parse selector = q from rfl, d.select_spelled_select named, Document.source_spelled]
  rw [first, second]
  refine ⟨⟨_, reread⟩, rfl, fun asks => ?_, d.found_spelled_select named⟩
  apply Document.found_eq_nil
  rw [matchingPaths_spelled, matchingPaths_select d named, if_pos asks]

theorem selectElements_again_assorted :
    let q := Query.parse "[id]".toList
    let once := selectElements assorted.source "[id]".toList
    let again := selectElements once.1 "[id]".toList
    Document.parse assorted.source = .ok assorted ∧ assorted.PlainNames ∧
      (∃ d', Document.parse once.1 = .ok d') ∧ again.1 = once.1 ∧ (q.AsksEmptyId → again.2 = []) ∧
      (¬ q.AsksEmptyId → again.2.map Match.unspelled = once.2.map Match.unspelled) :=
  ⟨parse_assorted, plainNames_assorted, selectElements_again _ parse_assorted plainNames_assorted⟩

example :
    let once := selectElements assorted.source "[id=\"\"]".toList
    let again := selectElements once.1 "[id=\"\"]".toList
    once.2.map Match.id = ["_selected_0".toList] ∧ again = (once.1, []) := by cbv

end SvgEdit
