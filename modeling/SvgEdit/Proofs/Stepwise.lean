import SvgEdit.Proofs.Rereading

/-!
# Transforming step by step

A request for all matches of a query can be applied in one document, or in texts, one match at a
time, each text being read again before the next match. Both ways end in the same text.
-/
namespace SvgEdit

namespace Document

/-- What one step makes of the source is the source of what it makes of the document. -/
theorem Rereadable.applyToText_source {d : Document} (h : d.Rereadable) (id : Text) (r : Request) :
    applyToText d.source id r = ((d.applyRequest? id r).getD d).source := by
  have lookup : d.spelled.root.findId? id = d.root.findId? id := d.root.findId?_spelled id
  rw [applyToText, h.parse_source]
  simp only [Document.applyRequest?, lookup]
  cases d.root.findId? id with
  | none => rfl
  | some path => exact source_modifyAt_spelled r.ignoresSpelling_apply d path

/-- All steps, one after the other. -/
theorem Rereadable.foldl_applyToText {d : Document} (h : d.Rereadable) (r : Request) (found : List Match) :
    found.foldl (fun text m => applyToText text m.id r) d.source = (d.applyToMatches r found).source := by
  induction found generalizing d with
  | nil => rfl
  | cons m found ih =>
    rw [List.foldl_cons, h.applyToText_source, ih (h.applyRequest? m.id r)]
    rfl

theorem found_ne_nil {d : Document} {q : Query} (matched : matchingPaths d q ≠ []) : (d.select q).2 ≠ [] := by
  obtain ⟨-, -, count, -⟩ := d.select_spec q
  intro none
  rw [none] at count
  exact matched (List.length_eq_zero_iff.mp count.symm)

end Document

/--
For a document with plain names, transforming the matches of a query gives the text that selecting
and then applying the request to the text for each match in turn gives, and tells the same matches.
-/
theorem transformMatching_eq_foldl_applyToText {s selector : Text} {d : Document} (r : Request)
    (parsed : Document.parse s = .ok d) (plain : d.PlainNames) (matched : matchingPaths d (Query.parse selector) ≠ []) :
    let selected := selectElements s selector
    transformMatching s selector r =
      ⟨none, s, selected.2.foldl (fun text m => applyToText text m.id r) selected.1, selected.2⟩ := by
  have rereadable := (Document.rereadable_of_parse parsed plain).select (Query.parse selector)
  have told := Document.found_ne_nil matched
  have selects : selectElements s selector =
      ((d.select (Query.parse selector)).1.source, (d.select (Query.parse selector)).2) := by
    rw [selectElements, parsed]
  intro selected
  simp only [selected, selects, rereadable.foldl_applyToText]
  simp [transformMatching, parsed, told]

theorem transformMatching_eq_foldl_applyToText_assorted :
    let r : Request := { translate := some ⟨.ofNat 1, .ofNat 2⟩, overrides := [("fill".toList, .string "red".toList)] }
    let selected := selectElements assorted.source "a".toList
    Document.parse assorted.source = .ok assorted ∧ assorted.PlainNames ∧
      matchingPaths assorted (Query.parse "a".toList) ≠ [] ∧
      transformMatching assorted.source "a".toList r =
        ⟨none, assorted.source, selected.2.foldl (fun text m => applyToText text m.id r) selected.1, selected.2⟩ := by
  have matched : matchingPaths assorted (Query.parse "a".toList) ≠ [] := by decide +kernel
  exact ⟨parse_assorted, plainNames_assorted, matched,
    transformMatching_eq_foldl_applyToText _ parse_assorted plainNames_assorted matched⟩

end SvgEdit
