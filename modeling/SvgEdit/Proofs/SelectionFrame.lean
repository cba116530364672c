import SvgEdit.Proofs.Identifiers

/-!
# What selecting changes and tells

Selecting tells one match for each matching element, in the order of the document. All that it
changes is the identifier of matches that have none or an empty one.
-/
namespace SvgEdit

/-! ## Writing an identifier -/

/-- An identifier is written: over an empty one in its place, or after all other attributes. -/
inductive WritesId (id : Text) : Attributes → Attributes → Prop
  | inPlace {front back : Attributes} {spelling : Option Spelling} (first : ∀ a ∈ front, a.name ≠ idName) :
      WritesId id (front ++ ⟨idName, [], spelling⟩ :: back) (front ++ ⟨idName, id, none⟩ :: back)
  | last {as : Attributes} (absent : ∀ a ∈ as, a.name ≠ idName) : WritesId id as (as ++ [⟨idName, id, none⟩])

theorem WritesId.cons {id : Text} {as as' : Attributes} (h : WritesId id as as') {a : Attribute}
    (other : a.name ≠ idName) : WritesId id (a :: as) (a :: as') := by
  have both {bs : Attributes} (others : ∀ b ∈ bs, b.name ≠ idName) : ∀ b ∈ a :: bs, b.name ≠ idName :=
    List.forall_mem_cons.mpr ⟨other, others⟩
  cases h with
  | @inPlace front back spelling first => exact @inPlace id (a :: front) back spelling (both first)
  | last absent => exact .last (both absent)

theorem writesId_set {id : Text} (nonempty : id ≠ []) {as : Attributes}
    (missing : ∀ value, as.value? idName = some value → value = []) : WritesId id as (as.set idName id) := by
  induction as with
  | nil => exact .last fun _ member => absurd member List.not_mem_nil
  | cons a as ih =>
    obtain ⟨name, value, spelling⟩ := a
    by_cases same : name = idName
    · subst same
      obtain rfl : value = [] := missing value (by rw [Attributes.value?_cons, if_pos rfl])
      rw [Attributes.set, if_pos rfl, if_neg nonempty.symm]
      exact @WritesId.inPlace id [] as spelling fun _ member => absurd member List.not_mem_nil
    · rw [Attributes.set, if_neg same]
      refine (ih fun value found => missing value ?_).cons same
      rwa [Attributes.value?_cons, if_neg same]

/-! ## One match -/

/-- What is told of an element that is the match at a place, and what becomes of its tag. -/
structure Element.SelectedAs (e : Element) (place : Nat) (e' : Element) (m : Match) : Prop where
  nonempty : m.id ≠ []
  tag : m.tag = localName e.name
  snapshot : m.attributes = e'.tag.attributes
  kept : ∀ id, e.id? = some id → m.id = id ∧ e'.tag = e.tag
  made : e.id? = none → m.id = madeId place ∧ e'.tag.bare = e.tag.bare ∧
    WritesId m.id e.tag.attributes e'.tag.attributes

theorem Tag.id?_eq_none_iff (t : Tag) : t.id? = none ↔ ∀ value, t.attributes.value? idName = some value → value = [] := by
  rw [id?, Option.filter_eq_none_iff]
  simp

theorem Tag.getD_id?_ne_nil (t : Tag) (place : Nat) : t.id?.getD (madeId place) ≠ [] := by
  cases own : t.id? with
  | none => exact madeId_ne_nil place
  | some id => exact (t.id?_eq_some_iff.mp own).2

theorem Element.selectedAs_ofTag {e e' : Element} {place : Nat} (named : e'.tag = e.tag.withId place) :
    e.SelectedAs place e' (Match.ofTag e.tag place) := by
  have same : e.tag.id? = e.id? := rfl
  refine ⟨e.tag.getD_id?_ne_nil place, rfl, by rw [named]; rfl, ?_, ?_⟩
  · intro id own
    refine ⟨by rw [Match.ofTag, same, own]; rfl, ?_⟩
    rw [named, Tag.withId, same, own]
    rfl
  · intro missing
    have made : (Match.ofTag e.tag place).id = madeId place := by
      rw [Match.ofTag, same, missing]
      rfl
    refine ⟨made, by rw [named, bare_withId], ?_⟩
    rw [made, named, Tag.withId, same, missing]
    exact writesId_set (madeId_ne_nil place) (e.tag.id?_eq_none_iff.mp missing)

/-! ## All matches -/

theorem pairwise_matchingPaths (d : Document) (q : Query) : (matchingPaths d q).Pairwise (· < ·) :=
  (d.root.content.pairwise_elementsFrom 0).sublist (List.filter_sublist.map Prod.fst)

/--
Selecting tells a match for each element below the root that satisfies the query, in the order of the
document, with its identifier or one made for its place and the attributes it has afterwards; apart
from identifiers that matches are given, all tags and the skeleton stay as they are.
-/
theorem Document.select_tells_and_changes (d : Document) (q : Query) :
    let selected := (d.select q).1
    let found := (d.select q).2
    ∃ paths : List Path, paths.Pairwise (· < ·) ∧
      (∀ path, path ∈ paths ↔ path ≠ [] ∧ ∃ e, d.root.elementAt? path = some e ∧ q.isMatch e = true) ∧
      found.length = paths.length ∧
      (∀ n path, paths[n]? = some path → ∃ e e' m, d.root.elementAt? path = some e ∧
        selected.root.elementAt? path = some e' ∧ found[n]? = some m ∧ e.SelectedAs n e' m) ∧
      selected.skeleton = d.skeleton ∧
      ∀ path e, path ∉ paths → d.root.elementAt? path = some e →
        ∃ e', selected.root.elementAt? path = some e' ∧ e'.tag = e.tag := by
  intro selected found
  obtain ⟨shape, -, count, told⟩ := d.select_spec q
  refine ⟨matchingPaths d q, pairwise_matchingPaths d q, fun path => mem_matchingPaths_iff d q, count, ?_, shape, ?_⟩
  · intro n path here
    obtain ⟨t, member, match_n⟩ := told n path here
    obtain ⟨e, leads, rfl⟩ := d.root.mem_tags_iff.mp member
    obtain ⟨e', leads', named⟩ := selected.root.mem_tags_iff.mp
      ((mem_tags_select_iff d q).mpr (.inl ⟨n, e.tag, here, member, rfl⟩))
    exact ⟨e, e', _, leads, leads', match_n, Element.selectedAs_ofTag named⟩
  · intro path e other leads
    have member := d.root.mem_tags_iff.mpr ⟨e, leads, rfl⟩
    exact selected.root.mem_tags_iff.mp ((mem_tags_select_iff d q).mpr (.inr ⟨other, member⟩))

end SvgEdit
