import SvgEdit.Proofs.Removals

/-!
# Steps over the whole tree

A rewriting that is known on every piece is known on a text: what it makes of the source of a tree is
again the source of a tree, with the same root.
-/
namespace SvgEdit

/--
What a rewriting of texts, read from the left, does to pieces, tags and elements. Elements that go have
a name that is `gone`, and attributes that go are `dropped`.
-/
structure Carries (rewrites : Text → Text → Prop) (terms terms' : Terms) (drops : SpelledAttribute → Prop)
    (gone : Text → Prop) : Prop where
  done : ∀ u, rewrites [] u → u = []
  mark : ∀ s u, rewrites (byteOrderMark :: s) u → ∃ u', u = byteOrderMark :: u' ∧ rewrites s u'
  other : ∀ p, terms.piece p → ∀ s, (p.isRun = true → EndsRuns s) → ∀ u, rewrites (p.source ++ s) u →
    ∃ p' u', terms'.piece p' ∧ (p.isOutside = true → p'.isOutside = true) ∧ u = p'.source ++ u' ∧ rewrites s u'
  empty : ∀ t, terms.tag t → ∀ s u, rewrites ((Piece.emptyTag t.inside).source ++ s) u →
    (gone t.name ∧ rewrites s u) ∨
      ∃ t' u', terms'.tag t' ∧ t.Keeps drops t' ∧ u = (Piece.emptyTag t'.inside).source ++ u' ∧ rewrites s u'
  element : ∀ t blanks inside, terms.tag t → Spaces blanks → SpelledContent.Meets terms inside → ∀ s rest u,
    rest = inside.source ++ ((Piece.endTag (t.name ++ blanks)).source ++ s) →
    rewrites ((Piece.startTag t.inside).source ++ rest) u →
    (gone t.name ∧ rewrites s u) ∨
      ∃ t' u', terms'.tag t' ∧ t.Keeps drops t' ∧ u = (Piece.startTag t'.inside).source ++ u' ∧ rewrites rest u'
  close : ∀ t blanks, terms.tag t → Spaces blanks → ∀ s u,
    rewrites ((Piece.endTag (t.name ++ blanks)).source ++ s) u →
    ∃ blanks' u', Spaces blanks' ∧ u = (Piece.endTag (t.name ++ blanks')).source ++ u' ∧ rewrites s u'

namespace Carries

variable {rewrites : Text → Text → Prop} {terms terms' : Terms} {drops : SpelledAttribute → Prop} {gone : Text → Prop}

theorem exists_content (carries : Carries rewrites terms terms' drops gone)
    (joins : ∀ r r', terms'.piece (.text r) → terms'.piece (.text r') → terms'.piece (.text (r ++ r')))
    {c : SpelledContent} (meets : c.Meets terms) (apart : c.RunsApart) {s : Text} (ends : EndsRuns s) {u : Text}
    (rewritten : rewrites (c.source ++ s) u) :
    ∃ (c' : SpelledContent) (u' : Text), u = c'.source ++ u' ∧ rewrites s u' ∧ c'.Meets terms' ∧ c'.RunsApart ∧
      c.Reduces (SpelledTag.Keeps drops) gone c' := by
  induction c generalizing s u with
  | nil => exact ⟨.nil, u, rfl, rewritten, trivial, trivial, .nil⟩
  | other p next ih =>
    rw [SpelledContent.source_other, List.append_assoc] at rewritten
    have ends' : p.isRun = true → EndsRuns (next.source ++ s) := fun run =>
      SpelledContent.endsRuns_source (apart.1 run).2 ends
    obtain ⟨p', v, here, blank, rfl, later⟩ := carries.other p meets.1 (next.source ++ s) ends' u rewritten
    obtain ⟨next', u', rfl, last, meets', apart', reduces⟩ := ih meets.2 apart.2 ends later
    obtain ⟨c', source, whole⟩ := SpelledContent.exists_joined joins here blank meets' apart' reduces
    exact ⟨c', u', by rw [source, List.append_assoc], last, whole⟩
  | empty t next ih =>
    rw [SpelledContent.source_empty, List.append_assoc] at rewritten
    rcases carries.empty t meets.1 (next.source ++ s) u rewritten with ⟨goes, later⟩ | ⟨t', v, here, keeps, rfl, later⟩
    · obtain ⟨next', u', rfl, last, meets', apart', reduces⟩ := ih meets.2 apart ends later
      exact ⟨next', u', rfl, last, meets', apart', .noEmpty goes reduces⟩
    · obtain ⟨next', u', rfl, last, meets', apart', reduces⟩ := ih meets.2 apart ends later
      refine ⟨.empty t' next', u', ?_, last, ⟨here, meets'⟩, apart', .empty keeps reduces⟩
      rw [SpelledContent.source_empty, List.append_assoc]
  | element t blanks inside next ihInside ihNext =>
    obtain ⟨⟨here, blank⟩, within, after⟩ := meets
    have ends' : EndsRuns ((Piece.endTag (t.name ++ blanks)).source ++ (next.source ++ s)) :=
      fun _ head => Option.some.inj head ▸ rfl
    rw [SpelledContent.source_element] at rewritten
    simp only [List.append_assoc] at rewritten
    rcases carries.element t blanks inside here blank within (next.source ++ s) _ u rfl rewritten with
      ⟨goes, later⟩ | ⟨t', v, here', keeps, rfl, later⟩
    · obtain ⟨next', u', rfl, last, meets', apart', reduces⟩ := ihNext after apart.2 ends later
      exact ⟨next', u', rfl, last, meets', apart', .noElement goes reduces⟩
    · obtain ⟨inside', w, rfl, inner, meets', apart', reduces⟩ := ihInside within apart.1 ends' later
      obtain ⟨blanks', w', blank', rfl, closed⟩ := carries.close t blanks here blank (next.source ++ s) w inner
      obtain ⟨next', u', rfl, last, meets'', apart'', reduces'⟩ := ihNext after apart.2 ends closed
      refine ⟨.element t' blanks' inside' next', u', ?_, last, ⟨⟨here', blank'⟩, meets', meets''⟩, ⟨apart', apart''⟩,
        .element keeps reduces reduces'⟩
      rw [SpelledContent.source_element, keeps.name]
      simp only [List.append_assoc]

theorem exists_marked (carries : Carries rewrites terms terms' drops gone) {k : Nat} {s u : Text}
    (rewritten : rewrites (List.replicate k byteOrderMark ++ s) u) :
    ∃ u', u = List.replicate k byteOrderMark ++ u' ∧ rewrites s u' := by
  induction k generalizing u with
  | zero => exact ⟨u, rfl, rewritten⟩
  | succ k ih =>
    rw [List.replicate_succ, List.cons_append] at rewritten
    obtain ⟨v, rfl, later⟩ := carries.mark _ u rewritten
    obtain ⟨u', rfl, last⟩ := ih later
    exact ⟨u', rfl, last⟩

/-- Rewriting leads from texts with the first terms to texts with the second ones. -/
theorem holds (carries : Carries rewrites terms terms' drops gone)
    (joins : ∀ r r', terms'.piece (.text r) → terms'.piece (.text r') → terms'.piece (.text (r ++ r')))
    {fact fact' : SpelledContent → Prop}
    (lasts : ∀ {c c' : SpelledContent}, c.Reduces (SpelledTag.Keeps drops) gone c' → fact c → fact' c')
    {s u : Text} (holds : terms.Holds fact s) (rewritten : rewrites s u) : terms'.Holds fact' u := by
  obtain ⟨k, few, c, rfl, meets, apart, known⟩ := holds
  obtain ⟨v, rfl, body⟩ := carries.exists_marked rewritten
  rw [← List.append_nil c.source] at body
  obtain ⟨c', u', rfl, last, meets', apart', reduces⟩ :=
    carries.exists_content joins meets apart (s := []) (fun _ head => nomatch head) body
  rw [carries.done u' last, List.append_nil]
  exact ⟨k, few, c', rfl, meets', apart', lasts reduces known⟩

end Carries

/-! ## Substituting -/

/-- What a step does to pieces, tags and elements; end tags stay as they are. -/
structure Sweeps (step : Text.Step) (terms terms' : Terms) (drops : SpelledAttribute → Prop) (gone : Text → Prop) :
    Prop where
  mark : ∀ s, step (byteOrderMark :: s) = none
  other : ∀ p, terms.piece p → ∀ s, (p.isRun = true → EndsRuns s) →
    ∃ p', terms'.piece p' ∧ (p.isOutside = true → p'.isOutside = true) ∧
      Text.substitute step (p.source ++ s) = p'.source ++ Text.substitute step s
  empty : ∀ t, terms.tag t → ∀ s,
    (gone t.name ∧ Text.substitute step ((Piece.emptyTag t.inside).source ++ s) = Text.substitute step s) ∨
      ∃ t', terms'.tag t' ∧ t.Keeps drops t' ∧ Text.substitute step ((Piece.emptyTag t.inside).source ++ s) =
        (Piece.emptyTag t'.inside).source ++ Text.substitute step s
  element : ∀ t blanks inside, terms.tag t → Spaces blanks → SpelledContent.Meets terms inside → ∀ s rest,
    rest = inside.source ++ ((Piece.endTag (t.name ++ blanks)).source ++ s) →
    (gone t.name ∧ Text.substitute step ((Piece.startTag t.inside).source ++ rest) = Text.substitute step s) ∨
      ∃ t', terms'.tag t' ∧ t.Keeps drops t' ∧ Text.substitute step ((Piece.startTag t.inside).source ++ rest) =
        (Piece.startTag t'.inside).source ++ Text.substitute step rest
  close : ∀ t blanks, terms.tag t → Spaces blanks → ∀ s,
    Text.substitute step ((Piece.endTag (t.name ++ blanks)).source ++ s) =
      (Piece.endTag (t.name ++ blanks)).source ++ Text.substitute step s

namespace Sweeps

variable {step : Text.Step} {terms terms' : Terms} {drops : SpelledAttribute → Prop} {gone : Text → Prop}

/-- A step by which no element goes. -/
theorem of_tags (mark : ∀ s, step (byteOrderMark :: s) = none)
    (other : ∀ p, terms.piece p → ∀ s, (p.isRun = true → EndsRuns s) →
      ∃ p', terms'.piece p' ∧ (p.isOutside = true → p'.isOutside = true) ∧
        Text.substitute step (p.source ++ s) = p'.source ++ Text.substitute step s)
    (tag : ∀ t, terms.tag t → ∃ t', terms'.tag t' ∧ t.Keeps drops t' ∧
      (∀ s, Text.substitute step ((Piece.startTag t.inside).source ++ s) =
        (Piece.startTag t'.inside).source ++ Text.substitute step s) ∧
      ∀ s, Text.substitute step ((Piece.emptyTag t.inside).source ++ s) =
        (Piece.emptyTag t'.inside).source ++ Text.substitute step s)
    (close : ∀ t blanks, terms.tag t → Spaces blanks → ∀ s,
      Text.substitute step ((Piece.endTag (t.name ++ blanks)).source ++ s) =
        (Piece.endTag (t.name ++ blanks)).source ++ Text.substitute step s) :
    Sweeps step terms terms' drops fun _ => False where
  mark := mark
  other := other
  empty t here s := by
    obtain ⟨t', here', keeps, -, empty⟩ := tag t here
    exact .inr ⟨t', here', keeps, empty s⟩
  element t blanks inside here _ _ s rest _ := by
    obtain ⟨t', here', keeps, start, -⟩ := tag t here
    exact .inr ⟨t', here', keeps, start rest⟩
  close := close

/-- Substituting rewrites from the left. -/
theorem carries (sweeps : Sweeps step terms terms' drops gone) :
    Carries (fun s u => u = Text.substitute step s) terms terms' drops gone where
  done u same := same.trans Text.substitute_nil
  mark s u same := ⟨_, same.trans (Text.substitute_cons_of_none (sweeps.mark s)), rfl⟩
  other p here s ends u same := by
    obtain ⟨p', here', blank, swept⟩ := sweeps.other p here s ends
    exact ⟨p', _, here', blank, same.trans swept, rfl⟩
  empty t here s u same := by
    rcases sweeps.empty t here s with ⟨goes, swept⟩ | ⟨t', here', keeps, swept⟩
    · exact .inl ⟨goes, same.trans swept⟩
    · exact .inr ⟨t', _, here', keeps, same.trans swept, rfl⟩
  element t blanks inside here blank within s rest u follows same := by
    rcases sweeps.element t blanks inside here blank within s rest follows with ⟨goes, swept⟩ | ⟨t', here', keeps, swept⟩
    · exact .inl ⟨goes, same.trans swept⟩
    · exact .inr ⟨t', _, here', keeps, same.trans swept, rfl⟩
  close t blanks here blank s u same := ⟨blanks, _, blank, same.trans (sweeps.close t blanks here blank s), rfl⟩

theorem holds (sweeps : Sweeps step terms terms' drops gone)
    (joins : ∀ r r', terms'.piece (.text r) → terms'.piece (.text r') → terms'.piece (.text (r ++ r')))
    {fact fact' : SpelledContent → Prop}
    (lasts : ∀ {c c' : SpelledContent}, c.Reduces (SpelledTag.Keeps drops) gone c' → fact c → fact' c')
    {s : Text} (holds : terms.Holds fact s) : terms'.Holds fact' (Text.substitute step s) :=
  sweeps.carries.holds joins lasts holds rfl

end Sweeps
end SvgEdit
