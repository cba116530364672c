import SvgEdit.Proofs.Application
import SvgEdit.Proofs.RoundTrip

/-!
# Documents read again

A document that was written and read again spells its values as they were written; all else about it
is as before. What sets attributes does not look at spellings, so it makes the same source of both
documents. `Rereadable` documents are read back from their source, and stay so while they are
selected in and requests are applied.
-/
namespace SvgEdit

/-! ## Spellings do not matter -/

theorem Attribute.spelled_spelled (a : Attribute) : a.spelled.spelled = a.spelled := rfl

namespace Attributes

theorem spelled_cons (a : Attribute) (as : Attributes) : spelled (a :: as) = a.spelled :: spelled as := rfl

theorem spelled_spelled (as : Attributes) : as.spelled.spelled = as.spelled := by
  rw [spelled, spelled, List.map_map]
  rfl

theorem value?_spelled (as : Attributes) (name : Text) : as.spelled.value? name = as.value? name := by
  induction as with
  | nil => rfl
  | cons a as ih =>
    rw [spelled_cons, value?_cons, value?_cons, ih]
    rfl

theorem has_spelled (as : Attributes) (name : Text) : as.spelled.has name = as.has name := by
  rw [has, has, spelled, List.any_map]
  rfl

/-- An equal value keeps its spelling, which is the one it is written in. -/
theorem spelled_set (as : Attributes) (name value : Text) :
    (as.spelled.set name value).spelled = (as.set name value).spelled := by
  induction as with
  | nil => rfl
  | cons a as ih =>
    have named : a.spelled.name = a.name := rfl
    have valued : a.spelled.value = a.value := rfl
    rw [spelled_cons, set, set, named, valued]
    by_cases same : a.name = name
    · by_cases equal : a.value = value
      · simp only [same, equal, if_true, spelled_cons, spelled_spelled, Attribute.spelled_spelled]
      · simp only [same, equal, if_true, if_false, spelled_cons, spelled_spelled]
    · simp only [same, if_false, spelled_cons, ih]
      rfl

end Attributes

theorem Tag.spelled_spelled (t : Tag) : t.spelled.spelled = t.spelled := by
  simp only [spelled, Attributes.spelled_spelled]

theorem Tag.value?_spelled (t : Tag) (name : Text) : t.spelled.attributes.value? name = t.attributes.value? name :=
  t.attributes.value?_spelled name

/-- The element with the spelling in which it is written. -/
def Element.spelled (e : Element) : Element := ⟨e.tag.spelled, e.content.spelled⟩

/-- An element with its path, spelled as it is written. -/
def spelledEntry (entry : Path × Element) : Path × Element := (entry.1, entry.2.spelled)

namespace Content

theorem spelled_spelled (c : Content) : c.spelled.spelled = c.spelled := by
  induction c with
  | nil => rfl
  | raw source next ih => simp only [spelled, ih]
  | element tag inside next within ih => simp only [spelled, Tag.spelled_spelled, within, ih]

theorem elementsFrom_spelled (c : Content) (place : Nat) :
    c.spelled.elementsFrom place = (c.elementsFrom place).map spelledEntry := by
  induction c generalizing place with
  | nil => rfl
  | raw source next ih => exact ih (place + 1)
  | element tag inside next within ih =>
    simp only [spelled, elementsFrom, List.map_append, List.map_cons, List.map_map, within, ih]
    rfl

end Content

namespace Element

theorem descendants_spelled (e : Element) : e.spelled.descendants = e.descendants.map spelledEntry :=
  e.content.elementsFrom_spelled 0

theorem elements_spelled (e : Element) : e.spelled.elements = e.elements.map spelledEntry := by
  rw [elements, elements, List.map_cons, descendants_spelled]
  rfl

theorem tags_spelled (e : Element) : e.spelled.tags = e.tags.map fun entry => (entry.1, entry.2.spelled) := by
  rw [tags, tags, elements_spelled, List.map_map, List.map_map]
  rfl

theorem attribute?_spelled (e : Element) (name : Text) : e.spelled.attribute? name = e.attribute? name :=
  e.tag.value?_spelled name

theorem findId?_spelled (e : Element) (id : Text) : e.spelled.findId? id = e.findId? id := by
  rw [findId?, findId?, elements_spelled, List.find?_map, Option.map_map]
  simp only [Function.comp_def, spelledEntry, attribute?_spelled]

end Element

theorem Query.isMatch_spelled (q : Query) (e : Element) : q.isMatch e.spelled = q.isMatch e := by
  have named : e.spelled.name = e.name := rfl
  have asked (constraint : Text × Option Text) :
      Query.matchesAttribute e.spelled constraint = Query.matchesAttribute e constraint := by
    obtain ⟨name, value⟩ := constraint
    cases value with
    | none => exact e.tag.attributes.has_spelled name
    | some value => simp only [Query.matchesAttribute, Element.attribute?_spelled]
  simp only [Query.isMatch, named, Element.attribute?_spelled, funext asked]

theorem matchingPaths_spelled (d : Document) (q : Query) : matchingPaths d.spelled q = matchingPaths d q := by
  have root : d.spelled.root = d.root.spelled := rfl
  rw [matchingPaths, matchingPaths, root, Element.descendants_spelled, List.filter_map, List.map_map]
  simp only [Function.comp_def, spelledEntry, Query.isMatch_spelled]

/-! ## Changes that do not look at spellings -/

/-- What is made of an element is written the same, in whatever way its values are spelled. -/
def IgnoresSpelling (f : Element → Element) : Prop := ∀ e, (f e.spelled).spelled = (f e).spelled

theorem ignoresSpelling_setAttribute (name value : Text) : IgnoresSpelling (·.setAttribute name value) := by
  intro e
  simp only [Element.spelled, Element.setAttribute, Tag.spelled, Attributes.spelled_set, Content.spelled_spelled]

namespace IgnoresSpelling

theorem comp {f g : Element → Element} (first : IgnoresSpelling f) (second : IgnoresSpelling g) :
    IgnoresSpelling fun e => g (f e) := by
  intro e
  calc (g (f e.spelled)).spelled = (g (f e.spelled).spelled).spelled := (second _).symm
    _ = (g (f e).spelled).spelled := by rw [first]
    _ = (g (f e)).spelled := second _

theorem modify {f : Element → Element} (h : IgnoresSpelling f) (c : Content) (n : Nat) :
    (c.spelled.modify f n).spelled = (c.modify f n).spelled := by
  induction c generalizing n with
  | nil => rfl
  | raw source next ih =>
    cases n with
    | zero => exact Content.spelled_spelled (.raw source next)
    | succ n => simp only [Content.spelled, Content.modify, ih]
  | element tag inside next _ ih =>
    cases n with
    | zero =>
      obtain ⟨sameTag, sameContent⟩ := Element.mk.inj (h ⟨tag, inside⟩)
      simp only [Element.spelled] at sameTag sameContent
      simp only [Content.spelled, Content.modify, sameTag, sameContent, Content.spelled_spelled]
    | succ n => simp only [Content.spelled, Content.modify, Tag.spelled_spelled, Content.spelled_spelled, ih]

theorem modifyAt {f : Element → Element} (h : IgnoresSpelling f) (path : Path) :
    IgnoresSpelling (Element.modifyAt f path) := by
  induction path with
  | nil => exact h
  | cons n path ih =>
    intro e
    simp only [Element.spelled, Element.modifyAt, Tag.spelled_spelled, ih.modify]

end IgnoresSpelling

/-- A change made in the document read again gives the same source. -/
theorem Document.source_modifyAt_spelled {f : Element → Element} (h : IgnoresSpelling f) (d : Document) (path : Path) :
    (d.spelled.modifyAt path f).source = (d.modifyAt path f).source := by
  have same : (d.spelled.modifyAt path f).spelled = (d.modifyAt path f).spelled :=
    congrArg (fun root => (⟨d.prolog, root, d.epilog⟩ : Document)) (h.modifyAt path d.root)
  rw [← (d.spelled.modifyAt path f).source_spelled, same, Document.source_spelled]

/-! ## Requests and identifiers -/

/-- The attributes that a request gives values, in order, where `existing` are the operations so far. -/
def Request.changes (r : Request) (existing : Option Text) : List (Text × Text) :=
  (r.compose existing).toList.map (transformName, ·) ++ r.directAttributes

theorem Request.apply_eq_foldl (r : Request) (e : Element) :
    r.apply e = (r.changes (e.attribute? transformName)).foldl (fun e (n, v) => e.setAttribute n v) e := by
  rw [apply, changes, List.foldl_append]
  cases r.compose (e.attribute? transformName) <;> rfl

theorem Request.plain_of_mem_changes {r : Request} {existing : Option Text} :
    ∀ change ∈ r.changes existing, Plain change.1 := by
  have plain : ∀ name ∈ transformName :: directNames, Plain name := by decide
  intro change member
  rcases List.mem_append.mp member with operations | direct
  · obtain ⟨value, -, rfl⟩ := List.mem_map.mp operations
    exact plain _ List.mem_cons_self
  · exact plain _ (List.mem_cons_of_mem _ (r.name_mem_directNames change direct))

theorem ignoresSpelling_foldl (changes : List (Text × Text)) :
    IgnoresSpelling fun e => changes.foldl (fun e (n, v) => e.setAttribute n v) e := by
  induction changes with
  | nil => exact fun e => by simp only [List.foldl_nil, Element.spelled, Tag.spelled_spelled, Content.spelled_spelled]
  | cons change changes ih => exact (ignoresSpelling_setAttribute change.1 change.2).comp ih

theorem Request.ignoresSpelling_apply (r : Request) : IgnoresSpelling r.apply := by
  intro e
  rw [apply_eq_foldl, apply_eq_foldl, Element.attribute?_spelled]
  exact ignoresSpelling_foldl _ e

theorem KeepsPieces.comp {f g : Element → Element} (first : KeepsPieces f) (second : KeepsPieces g) :
    KeepsPieces fun e => g (f e) := by
  intro e ps writes
  obtain ⟨qs, writes, same⟩ := first e ps writes
  obtain ⟨rs, writes, same'⟩ := second (f e) qs writes
  exact ⟨rs, writes, same'.trans same⟩

theorem keepsPieces_id : KeepsPieces fun e => e := fun _ ps writes => ⟨ps, writes, rfl⟩

theorem keepsPieces_foldl {changes : List (Text × Text)} (plain : ∀ change ∈ changes, Plain change.1) :
    KeepsPieces fun e => changes.foldl (fun e (n, v) => e.setAttribute n v) e := by
  induction changes with
  | nil => exact keepsPieces_id
  | cons change changes ih =>
    have first := keepsPieces_setAttribute (plain change List.mem_cons_self) change.2
    exact first.comp (ih fun later member => plain later (List.mem_cons_of_mem change member))

theorem Request.keepsPieces_apply (r : Request) : KeepsPieces r.apply := by
  intro e ps writes
  rw [apply_eq_foldl]
  exact keepsPieces_foldl plain_of_mem_changes e ps writes

theorem keepsPieces_withId (place : Nat) : KeepsPieces (·.withId place) := by
  have plain : Plain idName := by decide
  intro e ps writes
  by_cases own : e.id?.isSome
  · simp only [Element.withId, own, if_true]
    exact keepsPieces_id e ps writes
  · simp only [Element.withId, own]
    exact keepsPieces_setAttribute plain (madeId place) e ps writes

/-! ## Documents that are read back -/

namespace Document

/-- The source is made of pieces that stay apart and are read back. -/
def Rereadable (d : Document) : Prop :=
  ∃ mark ps, (mark = [] ∨ mark = [byteOrderMark]) ∧ WritesDocument mark ps d ∧ Apart ps

theorem rereadable_of_parse {s : Text} {d : Document} (parsed : Document.parse s = .ok d) (plain : d.PlainNames) :
    d.Rereadable := by
  obtain ⟨ps, writes, apart⟩ := writesDocument_of_parse parsed plain
  exact ⟨_, ps, splitMark_fst s, writes, apart⟩

namespace Rereadable

variable {d : Document}

theorem parse_source (h : d.Rereadable) : Document.parse d.source = .ok d.spelled := by
  obtain ⟨mark, ps, marked, writes, apart⟩ := h
  exact writes.parse_source apart marked

theorem modifyAt (h : d.Rereadable) {f : Element → Element} (keeps : KeepsPieces f) (path : Path) :
    (d.modifyAt path f).Rereadable := by
  obtain ⟨mark, ps, marked, writes, apart⟩ := h
  obtain ⟨qs, writes, same⟩ := writes.modifyAt keeps path
  exact ⟨mark, qs, marked, writes, apart_of_same same apart⟩

theorem assignIdsFrom (h : d.Rereadable) (place : Nat) (paths : List Path) :
    (assignIdsFrom place d paths).1.Rereadable := by
  induction paths generalizing place d with
  | nil => exact h
  | cons path paths ih =>
    rw [SvgEdit.assignIdsFrom]
    split
    · exact ih h (place + 1)
    · exact ih (h.modifyAt (keepsPieces_withId place) path) (place + 1)

theorem select (h : d.Rereadable) (q : Query) : (d.select q).1.Rereadable := h.assignIdsFrom 0 _

theorem applyRequest? (h : d.Rereadable) (id : Text) (r : Request) : ((d.applyRequest? id r).getD d).Rereadable := by
  rw [Document.applyRequest?]
  cases d.root.findId? id with
  | none => exact h
  | some path => exact h.modifyAt r.keepsPieces_apply path

end Rereadable
end Document

/-- A document with an identifier that stands twice, one that is empty, and values spelled in various ways. -/
def assorted : Document :=
  ⟨[], ⟨⟨"svg".toList, [], false⟩,
    .element ⟨"a".toList, [⟨idName, "x".toList, some ⟨"&#120;".toList, .single⟩⟩], true⟩ .nil
      (.raw "&amp;".toList (.element ⟨"a".toList,
        [⟨"fill".toList, "red".toList, some ⟨"r&#101;d".toList, .single⟩⟩, ⟨idName, [], some ⟨[], .double⟩⟩], true⟩ .nil
          (.element ⟨"a".toList, [⟨idName, "x".toList, some ⟨"x".toList, .double⟩⟩], true⟩ .nil .nil)))⟩, []⟩

theorem parse_assorted : Document.parse assorted.source = .ok assorted := by cbv

theorem plainNames_assorted : assorted.PlainNames := by
  unfold Document.PlainNames Tag.PlainNames
  decide

end SvgEdit
