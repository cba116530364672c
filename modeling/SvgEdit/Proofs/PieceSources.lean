import SvgEdit.Proofs.RoundTrip

/-!
# Sources piece by piece

The source of a document that was read is made of the pieces it was read from, one after the other:
each is written back as it was, but for the blanks inside of tags and the spelling of the document
type's keyword.
-/
namespace SvgEdit

/-! ## Pieces as they are written back -/

/-- An attribute after one blank, its value as it is written. -/
def WrittenAttribute.source (a : WrittenAttribute) : Text :=
  ' ' :: (a.key ++ '=' :: a.spelling.quote.char :: (a.spelling.raw ++ [a.spelling.quote.char]))

namespace Piece

/-- The source of a piece in the document that was read from it. -/
def writtenBack : Piece → Text
  | startTag inside => '<' :: (tagName inside ++ (splitAttributes inside).1.flatMap WrittenAttribute.source ++ ['>'])
  | emptyTag inside =>
    '<' :: (tagName inside ++ (splitAttributes inside).1.flatMap WrittenAttribute.source ++ ['/', '>'])
  | endTag inside => '<' :: '/' :: (endName inside ++ ['>'])
  | doctype _ content =>
    ['<', '!', 'D', 'O', 'C', 'T', 'Y', 'P', 'E', ' '] ++ content.dropWhile isSpace ++ ['>']
  | p => p.source

/-- If the piece is a tag with attributes, then these are all that stands after its name. -/
def IsSplit : Piece → Prop
  | startTag inside | emptyTag inside => Splits [] (tagAttributes inside) (splitAttributes inside).1
  | _ => True

theorem isSplit_of_other {p : Piece} (other : p.isTag = false) : p.IsSplit := by
  cases p <;> trivial

theorem kept_eq_writtenBack {p : Piece} (other : p.isTag = false) : p.kept = p.writtenBack := by
  cases p with
  | startTag | emptyTag | endTag => cases other
  | _ => rfl

end Piece

/-! ## Tags -/

/-- No name in the attributes begins with an equals sign. -/
def Attributes.Clear (as : Attributes) : Prop := ∀ a ∈ as, a.name.head? ≠ some '='

theorem source_of_spells {written : List WrittenAttribute} {as : Attributes}
    (spells : List.Forall₂ Spells written as) : as.source = written.flatMap WrittenAttribute.source := by
  induction spells with
  | nil => rfl
  | @cons w a written as spell _ ih =>
    have here : a.source = w.source := by
      rw [Attribute.source, spell.spelling, spell.name]
      rfl
    rw [Attributes.source_cons, here, ih, List.flatMap_cons]

theorem Splits.splitAttributes_eq {inside : Text} {written : List WrittenAttribute}
    (splits : Splits [] (tagAttributes inside) written) : splitAttributes inside = (written, none) :=
  splitAttributesFrom_eq_iff.mpr splits

theorem splits_of_readAttributes {inside : Text} {as : Attributes} (read : readAttributes inside = .ok as) :
    Splits [] (tagAttributes inside) (splitAttributes inside).1 := by
  obtain ⟨written, splits, -⟩ := readAttributes_eq_ok_iff.mp read
  rwa [splits.splitAttributes_eq]

/-- The attributes are written as they were split. -/
theorem source_of_readAttributes {inside : Text} {as : Attributes} (read : readAttributes inside = .ok as)
    (clear : as.Clear) : as.source = (splitAttributes inside).1.flatMap WrittenAttribute.source := by
  obtain ⟨written, splits, spells⟩ := (readAttributes_eq_ok_iff_spells clear).mp read
  rw [splits.splitAttributes_eq]
  exact source_of_spells spells

/-- An element without content, read from a tag that closes itself, is written as that tag. -/
theorem Tag.enclose_emptyTag {inside : Text} {e : Element} (tag : Assembly.tagElement inside true = .ok e)
    (clear : e.tag.attributes.Clear) : e.tag.enclose true [] = (Piece.emptyTag inside).writtenBack := by
  obtain ⟨as, read, rfl⟩ := Assembly.tagElement_eq_ok_iff.mp tag
  simp [enclose, Piece.writtenBack, source_of_readAttributes read clear]

/-- An element read from a start tag and an end tag is written as its content between the two. -/
theorem Tag.enclose_startTag {inside close : Text} {e : Element} (tag : Assembly.tagElement inside false = .ok e)
    (closes : Piece.endName close = e.name) (clear : e.tag.attributes.Clear) (empty : Bool) (inner : Text) :
    e.tag.enclose empty inner = (Piece.startTag inside).writtenBack ++ inner ++ (Piece.endTag close).writtenBack := by
  obtain ⟨as, read, rfl⟩ := Assembly.tagElement_eq_ok_iff.mp tag
  simp [enclose, Piece.writtenBack, source_of_readAttributes read clear, closes, Element.name]

/-! ## Content -/

theorem Builds.isSplit {ps : List Piece} {c : Content} (h : Builds ps c) : ∀ p ∈ ps, p.IsSplit := by
  induction h with
  | nil => exact fun _ member => absurd member List.not_mem_nil
  | raw other _ ih => exact List.forall_mem_cons.mpr ⟨Piece.isSplit_of_other other, ih⟩
  | empty tag _ ih =>
    obtain ⟨as, read, -⟩ := Assembly.tagElement_eq_ok_iff.mp tag
    exact List.forall_mem_cons.mpr ⟨splits_of_readAttributes read, ih⟩
  | element tag _ _ _ within later =>
    obtain ⟨as, read, -⟩ := Assembly.tagElement_eq_ok_iff.mp tag
    refine List.forall_mem_cons.mpr ⟨splits_of_readAttributes read, List.forall_mem_append.mpr ⟨within, ?_⟩⟩
    exact List.forall_mem_cons.mpr ⟨trivial, later⟩

/-- The source of a content is that of its pieces, the tree being taken apart again. -/
theorem Builds.source {ps : List Piece} {c : Content} (h : Builds ps c) {n : Nat}
    (clear : ∀ entry ∈ c.elementsFrom n, entry.2.tag.attributes.Clear) : c.source = ps.flatMap Piece.writtenBack := by
  induction h generalizing n with
  | nil => rfl
  | @raw p ps next other _ ih =>
    rw [Content.source, List.flatMap_cons, ih (n := n + 1) clear, Piece.kept_eq_writtenBack other]
  | empty tag _ ih =>
    obtain ⟨here, -, after⟩ := Content.forall_elementsFrom_element.mp clear
    rw [Content.source, List.flatMap_cons, ← Tag.enclose_emptyTag tag here, ih after]
    simp [Content.source]
  | element tag closes _ _ within later =>
    obtain ⟨here, below, after⟩ := Content.forall_elementsFrom_element.mp clear
    rw [Content.source, Tag.enclose_startTag tag closes here, within (n := 0) below, later after]
    simp

/-! ## Documents -/

theorem BuildsDocument.source {mark : Text} {ps : List Piece} {d : Document} (h : BuildsDocument mark ps d)
    (clear : ∀ entry ∈ d.elements, entry.2.tag.attributes.Clear) : d.source = mark ++ ps.flatMap Piece.writtenBack := by
  obtain ⟨front, middle, back, rfl, outside, outside', builds, prolog, epilog⟩ := h
  have around {qs : List Piece} (outside : ∀ q ∈ qs, q.isOutside = true) :
      (qs.map Piece.kept).flatten = qs.flatMap Piece.writtenBack := by
    rw [List.map_congr_left fun q member => Piece.kept_eq_writtenBack (Piece.isTag_of_isOutside (outside q member))]
    rfl
  have root : d.root.source = middle.flatMap Piece.writtenBack := by
    rw [← builds.source (n := 0) fun entry member => ?_, Content.source, Content.source, List.append_nil]
    · rfl
    · obtain ⟨path, listed⟩ := Document.exists_mem_elements member
      exact clear (path, entry.2) listed
  rw [Document.source, prolog, epilog, root, List.flatten_append, around outside, around outside']
  by_cases none : mark = [] <;> simp [none]

theorem BuildsDocument.isSplit {mark : Text} {ps : List Piece} {d : Document} (h : BuildsDocument mark ps d) :
    ∀ p ∈ ps, p.IsSplit := by
  obtain ⟨front, middle, back, rfl, outside, outside', builds, -, -⟩ := h
  have around {qs : List Piece} (outside : ∀ q ∈ qs, q.isOutside = true) : ∀ q ∈ qs, q.IsSplit :=
    fun q member => Piece.isSplit_of_other (Piece.isTag_of_isOutside (outside q member))
  simp only [List.forall_mem_append]
  exact ⟨around outside, builds.isSplit, around outside'⟩

/-- The pieces of a document are those that reading stops after without a fault. -/
theorem Document.exists_readPieces {s : Text} {d : Document} (parsed : Document.parse s = .ok d) :
    ∃ ps, ps.flatMap Piece.source = (splitMark (splitMark s).2).2 ∧
      readPieces (splitMark (splitMark s).2).2 = (ps, none) ∧ BuildsDocument (splitMark s).1 ps d := by
  obtain ⟨ps, cut, builds⟩ := Document.parse_eq_ok_iff.mp parsed
  obtain ⟨a, added, -⟩ := Assembly.finish_addAll_iff.mpr builds
  exact ⟨ps, cut.source.symm, cut.readPiecesFrom (Assembly.nests_of_addAll added) 0, builds⟩

theorem splitMark_append (s : Text) : (splitMark s).1 ++ (splitMark s).2 = s := by
  unfold splitMark
  split
  · next c body => by_cases mark : c = byteOrderMark <;> simp [mark]
  · rfl

/-- A second mark is split off only after a first one. -/
theorem splitMark_again (s : Text) (unmarked : (splitMark s).1 = []) : (splitMark (splitMark s).2).1 = [] := by
  have same := splitMark_append s
  rw [unmarked, List.nil_append] at same
  rw [same, unmarked]

/--
A text without names that begin with an equals sign is read as a document whose source is that of the
pieces of the text, each written back in its place; only a second byte order mark is lost.
-/
theorem source_eq_flatMap_writtenBack {s : Text} {d : Document} (parsed : Document.parse s = .ok d)
    (clear : ∀ entry ∈ d.elements, entry.2.tag.attributes.Clear) :
    ∃ lost pieces, s = (splitMark s).1 ++ lost ++ pieces.flatMap Piece.source ∧
      (lost = [] ∨ (splitMark s).1 = [byteOrderMark] ∧ lost = [byteOrderMark]) ∧
      readPieces (pieces.flatMap Piece.source) = (pieces, none) ∧ (∀ p ∈ pieces, p.IsSplit) ∧
      d.source = (splitMark s).1 ++ pieces.flatMap Piece.writtenBack := by
  obtain ⟨pieces, whole, read, builds⟩ := Document.exists_readPieces parsed
  refine ⟨(splitMark (splitMark s).2).1, pieces, ?_, ?_, by rw [whole, read], builds.isSplit, builds.source clear⟩
  · rw [whole, List.append_assoc, splitMark_append, splitMark_append]
  · rcases splitMark_fst s with unmarked | marked
    · exact .inl (splitMark_again s unmarked)
    · exact (splitMark_fst (splitMark s).2).imp_right fun second => ⟨marked, second⟩

/-- A text with two marks, blanks that are not kept, both quotes, and pieces of every kind. -/
def sundry : Text :=
  byteOrderMark :: byteOrderMark :: ("<?xml version='1.0'?>\n<!doctype  svg >".toList ++
    "<svg\tx = '&lt;\"'y=\"\" ><!-- a --><g  /><![CDATA[<]]>&amp; b</svg\n><?end?>".toList)

/-- The document that is read from it. -/
def sundryDocument : Document :=
  ⟨[[byteOrderMark], "<?xml version='1.0'?>".toList, "\n".toList, "<!DOCTYPE svg >".toList],
    ⟨⟨"svg".toList, [⟨"x".toList, "<\"".toList, some ⟨"&lt;\"".toList, .single⟩⟩, ⟨"y".toList, [], some ⟨[], .double⟩⟩],
      false⟩,
      .raw "<!-- a -->".toList (.element ⟨"g".toList, [], true⟩ .nil
        (.raw "<![CDATA[<]]>".toList (.raw "&amp;".toList (.raw " b".toList .nil))))⟩,
    ["<?end?>".toList]⟩

theorem source_eq_flatMap_writtenBack_sundry :
    Document.parse sundry = .ok sundryDocument ∧
      (∀ entry ∈ sundryDocument.elements, entry.2.tag.attributes.Clear) ∧
      ∃ lost pieces, sundry = (splitMark sundry).1 ++ lost ++ pieces.flatMap Piece.source ∧
        (lost = [] ∨ (splitMark sundry).1 = [byteOrderMark] ∧ lost = [byteOrderMark]) ∧
        readPieces (pieces.flatMap Piece.source) = (pieces, none) ∧ (∀ p ∈ pieces, p.IsSplit) ∧
        sundryDocument.source = (splitMark sundry).1 ++ pieces.flatMap Piece.writtenBack := by
  have parsed : Document.parse sundry = .ok sundryDocument := by cbv
  have clear : ∀ entry ∈ sundryDocument.elements, entry.2.tag.attributes.Clear := by
    unfold Attributes.Clear
    decide
  exact ⟨parsed, clear, source_eq_flatMap_writtenBack parsed clear⟩

example : sundryDocument.source =
    byteOrderMark :: ("<?xml version='1.0'?>\n<!DOCTYPE svg >".toList ++
      "<svg x='&lt;\"' y=\"\"><!-- a --><g/><![CDATA[<]]>&amp; b</svg><?end?>".toList) := by
  decide

end SvgEdit
