import SvgEdit.Proofs.CanonicalQueries
import SvgEdit.Proofs.DocumentOrder
import SvgEdit.Proofs.Identifiers

/-!
# Requests for one element

A request can name its element in two ways: by an identifier, or by the query that asks for nothing but this
identifier. A lookup begins at the root and ends at the first element; a query leaves the root out and asks for
all elements. Where at most one element has the identifier, and the root has not, the two ways are one.
-/
namespace SvgEdit

/-! ## The query for an identifier -/

/-- The query that asks for nothing but an identifier. -/
def Query.byId (id : Text) : Query := { id := some id }

/-- A mark and a name make the query for the name. -/
theorem Query.parse_mark_cons {id : Text} (named : IsMarkedName id) : parse ('#' :: id) = byId id := by
  have single : IsSelector [.marked '#' id] := by
    refine ⟨List.forall_mem_singleton.mpr ⟨.inl rfl, named⟩, Nat.zero_le 1, ?_, List.isChain_singleton _⟩
    simp [idsOf, Part.under?]
  have written : textOf [.marked '#' id] = '#' :: id := List.append_nil _
  rw [← written, parse_textOf single]
  rfl

theorem Query.isMatch_byId {id : Text} {e : Element} :
    (byId id).isMatch e = true ↔ e.attribute? idName = some id := by
  simp [isMatch_iff, byId]

/-! ## Its matches -/

/-- At most one element has an identifier, and the root has not. -/
structure Document.HasOnceBelow (d : Document) (id : Text) : Prop where
  root : ¬ d.root.Carries [] id
  once : ∀ path other, d.root.Carries path id → d.root.Carries other id → path = other

theorem Document.hasOnceBelow_iff {d : Document} {id : Text} :
    d.HasOnceBelow id ↔ ∀ entry ∈ d.root.tags, entry.2.attributes.value? idName = some id →
      entry.1 ≠ [] ∧ ∀ other ∈ d.root.tags, other.2.attributes.value? idName = some id → entry.1 = other.1 := by
  constructor
  · rintro h ⟨path, t⟩ listed carries
    refine ⟨?_, fun ⟨other, u⟩ listed' carries' => h.once path other ⟨t, listed, carries⟩ ⟨u, listed', carries'⟩⟩
    rintro rfl
    exact h.root ⟨t, listed, carries⟩
  · refine fun h => ⟨fun ⟨t, listed, carries⟩ => (h _ listed carries).1 rfl, ?_⟩
    rintro path other ⟨t, listed, carries⟩ ⟨u, listed', carries'⟩
    exact (h _ listed carries).2 _ listed' carries'

instance (d : Document) (id : Text) : Decidable (d.HasOnceBelow id) := decidable_of_iff' _ Document.hasOnceBelow_iff

theorem mem_matchingPaths_byId_iff (d : Document) {id : Text} {path : Path} :
    path ∈ matchingPaths d (.byId id) ↔ path ≠ [] ∧ d.root.Carries path id := by
  simp only [mem_matchingPaths_iff, Query.isMatch_byId, Element.carries_iff_elementAt?]

/-- The query for the identifier matches what a lookup finds. -/
theorem matchingPaths_byId {d : Document} {id : Text} (h : d.HasOnceBelow id) :
    matchingPaths d (.byId id) = (d.root.findId? id).toList := by
  cases found : d.root.findId? id with
  | none =>
    refine List.eq_nil_iff_forall_not_mem.mpr fun path member => ?_
    obtain ⟨x, leads, carries⟩ := d.root.carries_iff_elementAt?.mp ((mem_matchingPaths_byId_iff d).mp member).2
    exact d.root.findId?_eq_none_iff.mp found path x leads carries
  | some path =>
    have carries : d.root.Carries path id := (d.root.findId?_eq_some_iff_precedes.mp found).1
    have below : path ≠ [] := by
      rintro rfl
      exact h.root carries
    have same (other : Path) : other ∈ matchingPaths d (.byId id) ↔ other ∈ [path] := by
      rw [mem_matchingPaths_byId_iff, List.mem_singleton]
      constructor
      · rintro ⟨-, theirs⟩
        exact h.once other path theirs carries
      · rintro rfl
        exact ⟨below, carries⟩
    exact List.perm_singleton.mp
      ((List.perm_ext_iff_of_nodup (nodup_matchingPaths d _) (List.nodup_singleton path)).mpr same)

/-- A single match that has an identifier is told, and the document stays as it is. -/
theorem Document.select_of_single {d : Document} {q : Query} {path : Path} {e : Element} {id : Text}
    (single : matchingPaths d q = [path]) (leads : d.root.elementAt? path = some e) (own : e.id? = some id) :
    ∃ m, d.select q = (d, [m]) ∧ m.id = id := by
  have kept : d.modifyAt path (·.withId 0) = d := by
    have same : d.root.modifyAt (·.withId 0) path = d.root := by
      refine Element.modifyAt_eq_self fun x here => ?_
      obtain rfl := Option.some.inj (leads.symm.trans here)
      rw [Element.withId, own]
      rfl
    rw [Document.modifyAt, same]
  refine ⟨Match.ofElement e 0, ?_, ?_⟩
  · rw [select, assignIds, single, assignIdsFrom, leads]
    simp only [kept, assignIdsFrom]
  · rw [Match.ofElement, own]
    rfl

/-! ## Two ways to name an element -/

theorem Document.applyToMatches_single (d : Document) (r : Request) (m : Match) :
    d.applyToMatches r [m] = (d.applyRequest? m.id r).getD d := rfl

/--
For a name that at most one element of a document has, and not the root, the query for the name and a lookup of
the name lead to the same text, even where there is no such element, or no document.
-/
theorem transformMatching_byId (s id : Text) (r : Request) (named : Query.IsMarkedName id)
    (once : ∀ d, Document.parse s = .ok d → d.HasOnceBelow id) :
    (transformMatching s ('#' :: id) r).modified = applyToText s id r := by
  cases parsed : Document.parse s with
  | error fault =>
    simp only [transformMatching, applyToText, parsed, Outcome.failed]
  | ok d =>
    have matched := matchingPaths_byId (once d parsed)
    cases found : d.root.findId? id with
    | none =>
      rw [found] at matched
      have unmatched := Document.found_eq_nil matched
      simp [transformMatching, applyToText, parsed, Query.parse_mark_cons named, unmatched, Outcome.failed,
        Document.applyRequest?, found]
    | some path =>
      rw [found] at matched
      obtain ⟨⟨e, leads, carries⟩, -⟩ := d.root.findId?_eq_some_iff_least.mp found
      have own : e.id? = some id := e.tag.id?_eq_some_iff.mpr ⟨carries, named.1⟩
      obtain ⟨m, selected, same⟩ := Document.select_of_single matched leads own
      simp [transformMatching, applyToText, parsed, Query.parse_mark_cons named, selected,
        Document.applyToMatches_single, same, Document.applyRequest?, found]

/-- A document in which each element has an identifier of its own. -/
def nested : Document :=
  ⟨[], ⟨{ identified "svg" "a" with selfClosing := false }, .element { identified "g" "b" with selfClosing := false }
    (.element (identified "rect" "c-1") .nil .nil) .nil⟩, []⟩

theorem transformMatching_byId_nested :
    Document.parse nested.source = .ok nested ∧
      (transformMatching nested.source "#c-1".toList (Request.fill "red".toList)).modified =
        applyToText nested.source "c-1".toList (Request.fill "red".toList) := by
  have parsed : Document.parse nested.source = .ok nested := by cbv
  refine ⟨parsed, transformMatching_byId nested.source "c-1".toList _ (by decide) fun d other => ?_⟩
  obtain rfl := Except.ok.inj (parsed.symm.trans other)
  decide

end SvgEdit
