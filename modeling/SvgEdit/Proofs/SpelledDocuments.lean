import SvgEdit.Proofs.ReadAgain
import SvgEdit.Proofs.SpelledContent

/-!
# The document that is spelled

Pieces build one content only, so what is read of a text whose pieces are those of spelled content is
known tag by tag.
-/
namespace SvgEdit

theorem Builds.unique {ps : List Piece} {c c' : Content} (left : Builds ps c) (right : Builds ps c') : c = c' := by
  have built := Assembly.addAll_of_builds left (a := ⟨[⟨⟨[], [], false⟩, .nil⟩], [], none, []⟩) rfl rfl
  rw [Assembly.addAll_of_builds right rfl rfl] at built
  simpa [Content.nil_append] using built.symm

/-- The tag that is read: the name, and the attributes as they are written. -/
structure SpelledTag.ReadsAs (t : SpelledTag) (tag : Tag) : Prop where
  name : tag.name = t.name
  attributes : List.Forall₂ (fun a b => Spells a.written b) t.attributes tag.attributes

theorem SpelledTag.Fit.exists_tagElement {t : SpelledTag} (fit : t.Fit) (selfClosing : Bool) :
    ∃ e, Assembly.tagElement t.inside selfClosing = .ok e ∧ t.ReadsAs e.tag := by
  have proper := fit.proper
  obtain ⟨as, read⟩ := proper.exists_readAttributes_iff.mpr ⟨fit.readable.once, fit.readable.references⟩
  refine ⟨_, Assembly.tagElement_eq_ok_iff.mpr ⟨as, read, rfl⟩, proper.tagName_inside, ?_⟩
  have written {ws : List WrittenAttribute} (splits : Splits [] (tagAttributes t.inside) ws) :
      ws = t.attributes.map SpelledAttribute.written := by
    rw [proper.tagAttributes_inside] at splits
    exact ((splits_spelled_iff proper.attributes proper.blanks List.nodup_nil).mp splits).1
  have clear : ∀ a ∈ as, a.name.head? ≠ some '=' := by
    intro a member
    obtain ⟨ws, splits, values⟩ := readAttributes_eq_ok_iff.mp read
    have named := List.mem_map_of_mem (f := Attribute.name) member
    rw [names_of_unescapeAll values, written splits, List.map_map] at named
    obtain ⟨b, listed, same⟩ := List.mem_map.mp named
    exact same ▸ (proper.attributes b listed).key.head?_ne rfl
  obtain ⟨ws, splits, spells⟩ := (readAttributes_eq_ok_iff_spells clear).mp read
  rw [written splits] at spells
  exact List.forall₂_map_left_iff.mp spells

namespace SpelledContent

/-- The content that is read, tag by tag. -/
inductive ReadsAs : SpelledContent → Content → Prop
  | nil : ReadsAs nil .nil
  | other {p : Piece} {next : SpelledContent} {later : Content} : ReadsAs next later →
    ReadsAs (other p next) (.raw p.kept later)
  | empty {t : SpelledTag} {tag : Tag} {next : SpelledContent} {later : Content} : t.ReadsAs tag →
    ReadsAs next later → ReadsAs (empty t next) (.element tag .nil later)
  | element {t : SpelledTag} {tag : Tag} {blanks : Text} {inside next : SpelledContent} {within later : Content} :
    t.ReadsAs tag → ReadsAs inside within → ReadsAs next later →
    ReadsAs (element t blanks inside next) (.element tag within later)

variable {terms : Terms}

theorem exists_builds (noTag : ∀ p, terms.piece p → p.isTag = false) (fit : ∀ t, terms.tag t → t.Fit)
    {c : SpelledContent} (meets : c.Meets terms) : ∃ content, Builds c.pieces content ∧ c.ReadsAs content := by
  induction c with
  | nil => exact ⟨.nil, .nil, .nil⟩
  | other p next ih =>
    obtain ⟨later, builds, reads⟩ := ih meets.2
    exact ⟨.raw p.kept later, .raw (noTag p meets.1) builds, .other reads⟩
  | empty t next ih =>
    obtain ⟨later, builds, reads⟩ := ih meets.2
    obtain ⟨e, tag, here⟩ := (fit t meets.1).exists_tagElement true
    exact ⟨.element e.tag .nil later, .empty tag builds, .empty here reads⟩
  | element t blanks inside next ihInside ihNext =>
    obtain ⟨⟨fits, blank⟩, meets', meets''⟩ := meets
    obtain ⟨within, inner, reads⟩ := ihInside meets'
    obtain ⟨later, builds, reads'⟩ := ihNext meets''
    obtain ⟨e, tag, here⟩ := (fit t fits).exists_tagElement false
    have closes : Piece.endName (t.name ++ blanks) = e.name :=
      ((fit t fits).proper.name.endName blank).trans here.name.symm
    exact ⟨.element e.tag within later, .element tag closes inner builds, .element here reads reads'⟩

/-- What is read of a text, as the content that its pieces spell. -/
theorem readsAs_of_parse (noTag : ∀ p, terms.piece p → p.isTag = false) (fit : ∀ t, terms.tag t → t.Fit)
    {c : SpelledContent} (meets : c.Meets terms) {s : Text} (cut : Cut (bodyOf s) c.pieces) {d : Document}
    (parsed : Document.parse s = .ok d) :
    ∃ before behind, c.ReadsAs (.after before (.element d.root.tag d.root.content (.after behind .nil))) := by
  obtain ⟨ps, cut', ⟨front, middle, back, rfl, outside, outside', builds, -⟩⟩ := Document.parse_eq_ok_iff.mp parsed
  obtain ⟨content, builds', reads⟩ := exists_builds noTag fit meets
  have whole := (builds.append (Builds.after outside' .nil)).after outside
  rw [List.append_nil, cut'.unique cut] at whole
  rw [builds'.unique whole] at reads
  exact ⟨_, _, reads⟩

end SpelledContent

/-- A text that is the source of content with a root is read as that content. -/
theorem Terms.Holds.exists_readsAs {terms : Terms} (solid : ∀ p, terms.piece p → p.Solid)
    (noTag : ∀ p, terms.piece p → p.isTag = false) (fit : ∀ t, terms.tag t → t.Fit) {name : Text}
    {fact : SpelledContent → Prop} {s : Text} (holds : terms.Holds (fun c => c.Rooted name ∧ fact c) s) :
    ∃ d, Document.parse s = .ok d ∧ ∃ c before behind, fact c ∧
      SpelledContent.ReadsAs c (.after before (.element d.root.tag d.root.content (.after behind .nil))) := by
  obtain ⟨k, few, c, rfl, meets, apart, rooted, known⟩ := holds
  obtain ⟨cut, d, parsed⟩ := SpelledContent.exists_parse solid noTag fit meets apart rooted few
  obtain ⟨before, behind, reads⟩ := SpelledContent.readsAs_of_parse noTag fit meets cut parsed
  exact ⟨d, parsed, c, before, behind, known, reads⟩

end SvgEdit
