import SvgEdit.Shrink.Level
import SvgEdit.Proofs.Tidy

/-!
# What stands in a piece

A piece is a body between an opening and a closing. Shrinking leaves the opening and the closing of a
section as they are, so that it depends on the body whether the section is read back, and whether anything
is found in it.
-/
namespace SvgEdit

/-! ## Opening, body and closing -/

namespace Piece

/-- What stands before the body of a piece. -/
def opening : Piece → Text
  | text _ => []
  | reference _ => ['&']
  | comment _ => ['<', '!', '-', '-']
  | characterData _ => ['<', '!', '[', 'C', 'D', 'A', 'T', 'A', '[']
  | doctype keyword _ => '<' :: '!' :: keyword
  | instruction _ => ['<', '?']
  | startTag _ | emptyTag _ => ['<']
  | endTag _ => ['<', '/']

def body : Piece → Text
  | text body | reference body | comment body | characterData body | doctype _ body | instruction body
  | startTag body | emptyTag body | endTag body => body

/-- What stands after the body of a piece. -/
def closing : Piece → Text
  | text _ => []
  | reference _ => [';']
  | comment _ => ['-', '-', '>']
  | characterData _ => [']', ']', '>']
  | instruction _ => ['?', '>']
  | emptyTag _ => ['/', '>']
  | doctype _ _ | startTag _ | endTag _ => ['>']

/-- The piece with another body. -/
def withBody (p : Piece) (u : Text) : Piece :=
  match p with
  | text _ => text u
  | reference _ => reference u
  | comment _ => comment u
  | characterData _ => characterData u
  | doctype keyword _ => doctype keyword u
  | instruction _ => instruction u
  | startTag _ => startTag u
  | emptyTag _ => emptyTag u
  | endTag _ => endTag u

theorem source_withBody (p : Piece) (u : Text) : (p.withBody u).source = p.opening ++ (u ++ p.closing) := by
  cases p <;> simp [withBody, source, opening, closing]

theorem withBody_body (p : Piece) : p.withBody p.body = p := by cases p <;> rfl

theorem source_eq_body (p : Piece) : p.source = p.opening ++ (p.body ++ p.closing) := by
  rw [← source_withBody, withBody_body]

/-- Whether what stands in the piece is read as it is, markup or not. -/
def isSection : Piece → Bool
  | characterData _ | doctype _ _ | instruction _ => true
  | _ => false

@[simp] theorem isSection_withBody (p : Piece) (u : Text) : (p.withBody u).isSection = p.isSection := by
  cases p <;> rfl

def isComment : Piece → Bool
  | comment _ => true
  | _ => false

end Piece

/-- The characters that may follow the body of a section. -/
def sectionStops : Text := [']', '>', '?']

/-- The characters that may follow the body of a piece. -/
def bodyStops : Text := ['<', '&', ';'] ++ sectionStops

theorem Piece.mem_sectionStops {p : Piece} (isSection : p.isSection = true) {s : Text} :
    ∀ c ∈ (p.closing ++ s).head?, c ∈ sectionStops := by
  cases p with
  | characterData | doctype | instruction => exact fun c head => Option.some.inj head ▸ (by decide)
  | _ => cases isSection

/-! ## Angle brackets that pair up -/

def isAngle (c : Char) : Bool := c = '<' || c = '>'

theorem isAngle_of_isBlank (c : Char) (blank : Text.isBlank c = true) : isAngle c = false := by
  rw [isAngle, Bool.or_eq_false_iff, decide_eq_false_iff_not, decide_eq_false_iff_not]
  constructor <;> (rintro rfl; exact absurd blank (by decide))

/-- Every angle bracket that opens in the text is closed in it, and so many that are open before it. -/
def Bracketed (depth : Nat) : Text → Prop
  | [] => depth = 0
  | c :: s =>
    if c = '<' then Bracketed (depth + 1) s
    else if c = '>' then depth ≠ 0 ∧ Bracketed (depth - 1) s
    else Bracketed depth s

theorem bracketed_filter_iff {depth : Nat} {u : Text} : Bracketed depth (u.filter isAngle) ↔ Bracketed depth u := by
  induction u generalizing depth with
  | nil => rfl
  | cons c u ih =>
    by_cases less : c = '<'
    · simp [isAngle, Bracketed, less, ih]
    · by_cases greater : c = '>'
      · simp [isAngle, Bracketed, greater, ih]
      · simp [isAngle, Bracketed, less, greater, ih]

/-- A declaration ends after what is bracketed. -/
theorem cutDeclaration_eq_some_iff {depth : Nat} {u rest : Text} :
    cutDeclaration depth (u ++ '>' :: rest) = some (u, rest) ↔ Bracketed depth u := by
  induction u generalizing depth with
  | nil => by_cases flat : depth = 0 <;> simp [cutDeclaration, Bracketed, flat]
  | cons c u ih =>
    rw [List.cons_append, cutDeclaration, Bracketed, ← ih, ← ih, ← ih]
    by_cases less : c = '<'
    · simp [less, Prod.ext_iff]
    · by_cases greater : c = '>'
      · by_cases flat : depth = 0 <;> simp [greater, flat, Prod.ext_iff]
      · simp [less, greater, Prod.ext_iff]

/-! ## Bodies that are read back -/

/-- A mark is found after a text that does not hold it, if its last character stands in it once. -/
theorem Text.cut?_of_not_infix (mark : Text) {before : Text} {c : Char} (once : c ∉ mark) (absent : ¬ mark ++ [c] <:+: before)
    (rest : Text) : cut? (mark ++ [c]) (before ++ (mark ++ c :: rest)) = some (before, rest) := by
  refine (cut?_eq_some_iff (by simp)).mpr ⟨by simp, fun b r whole => ?_⟩
  have whole : (b ++ mark) ++ c :: r = before ++ (mark ++ c :: rest) := by simpa using whole.symm
  rcases List.append_eq_append_iff.mp whole with ⟨more, same, tail⟩ | ⟨more, same, tail⟩
  · cases more with
    | nil =>
      have short := length_le_of_not_mem (u := mark) (v := []) tail.symm once
      rw [same]
      simp only [List.length_append, List.length_nil] at short ⊢
      omega
    | cons d more =>
      obtain ⟨rfl, -⟩ := List.cons.inj tail
      exact absurd ⟨b, more, by rw [same]; simp⟩ absent
  · have long := length_le_of_not_mem tail once
    have both := congrArg List.length same
    simp only [List.length_append] at both
    omega

/-- A mark that begins before a text with none of its characters ends before it. -/
theorem Text.prefix_of_stops {mark w s : Text} (stops : ∀ c ∈ s.head?, c ∉ mark) (starts : mark <+: w ++ s) :
    mark <+: w := by
  obtain ⟨rest, whole⟩ := starts
  rcases List.append_eq_append_iff.mp whole with ⟨more, same, -⟩ | ⟨more, same, tail⟩
  · exact ⟨more, same.symm⟩
  · cases more with
    | nil => exact ⟨[], by rw [same, List.append_nil, List.append_nil]⟩
    | cons c more =>
      refine absurd ?_ (stops c (by rw [tail]; rfl))
      rw [same]
      exact List.mem_append_right w List.mem_cons_self

/-- What begins in a section and cannot go on behind it stands in its body. -/
theorem Piece.prefix_of_isSection {p : Piece} (isSection : p.isSection = true) {mark : Text}
    (stops : ∀ c ∈ sectionStops, c ∉ mark) {w s : Text} (starts : mark <+: w ++ (p.closing ++ s)) : mark <+: w :=
  Text.prefix_of_stops (fun c head => stops c (mem_sectionStops isSection c head)) starts

/-- The text without its blanks. -/
def Text.unblanked (s : Text) : Text := s.filter (!isBlank ·)

namespace Text

theorem unblanked_append (s t : Text) : unblanked (s ++ t) = unblanked s ++ unblanked t := List.filter_append ..

theorem unblanked_cons_of_blank {c : Char} (blank : isBlank c = true) (s : Text) : unblanked (c :: s) = unblanked s :=
  List.filter_cons_of_neg (by simp [blank])

theorem unblanked_cons_of_solid {c : Char} (noBlank : isBlank c = false) (s : Text) :
    unblanked (c :: s) = c :: unblanked s := List.filter_cons_of_pos (by simp [noBlank])

theorem unblanked_of_blank {s : Text} (blank : ∀ c ∈ s, isBlank c = true) : unblanked s = [] :=
  List.filter_eq_nil_iff.mpr fun c member => by simp [blank c member]

theorem unblanked_of_solid {s : Text} (noBlank : ∀ c ∈ s, isBlank c = false) : unblanked s = s :=
  List.filter_eq_self.mpr fun c member => by simp [noBlank c member]

/-- A mark without blanks is found without the blanks around it as well. -/
theorem infix_unblanked {mark u : Text} (noBlank : ∀ c ∈ mark, isBlank c = false) (inside : mark <:+: u) :
    mark <:+: unblanked u := by
  rw [← unblanked_of_solid noBlank]
  exact inside.filter _

end Text

theorem free_of_readReference {s rest body : Text} (read : readReference s = .ok (.reference body, rest)) :
    Free [';', '&', '<'] body := by
  unfold readReference at read
  split at read
  · obtain ⟨same, -⟩ := Prod.mk.inj (Except.ok.inj read)
    obtain rfl := Piece.reference.inj same
    intro c member
    have inside := List.mem_takeWhile_imp member
    simp only [decide_eq_true_eq] at inside
    simp [inside]
  · cases read

namespace Piece

/-- A piece other than a tag or a comment, whose body may be what it is. -/
def Framed : Piece → Prop
  | text run => Free ['<', '&'] run
  | reference body => Free [';', '&', '<'] body
  | characterData _ | instruction _ => True
  | doctype keyword content =>
    isDoctypeKeyword keyword = true ∧ (∀ c ∈ keyword.head?, c = 'D' ∨ c = 'd') ∧ Bracketed 0 content
  | _ => False

/-- A section ends where its body does, also when there are fewer blanks. -/
def Closed : Piece → Prop
  | characterData body => ¬ [']', ']', '>'] <:+: Text.unblanked body
  | doctype _ content => ∃ c ∈ content, Text.isBlank c = false
  | instruction body => ¬ ['?', '>'] <:+: '?' :: Text.unblanked body
  | _ => True

instance : DecidablePred Closed
  | characterData _ | instruction _ => inferInstanceAs (Decidable (¬ _ <:+: _))
  | doctype _ content => inferInstanceAs (Decidable (∃ c ∈ content, Text.isBlank c = false))
  | text _ | reference _ | comment _ | startTag _ | emptyTag _ | endTag _ => isTrue trivial

/-- A piece that is read back, also when there are fewer blanks. -/
structure Sound (p : Piece) : Prop where
  framed : p.Framed
  closed : p.Closed

theorem isTag_of_framed {p : Piece} (h : p.Framed) : p.isTag = false := by
  cases p <;> first | rfl | exact h.elim

/-- The opening of a piece holds no blank, and not the first character of declarations. -/
theorem Framed.opening {p : Piece} (framed : p.Framed) : ∀ c ∈ p.opening, Text.isBlank c = false ∧ c ≠ 'x' := by
  cases p with
  | doctype keyword content =>
    refine List.forall_mem_cons.mpr ⟨by decide, List.forall_mem_cons.mpr ⟨by decide, fun c member => ⟨?_, ?_⟩⟩⟩
    · exact Text.isBlank_of_isAlphanum (isAlphanum_of_isDoctypeKeyword framed.1 c member)
    · rintro rfl
      have lower := List.mem_map_of_mem (f := Char.toLower) member
      rw [of_decide_eq_true framed.1] at lower
      revert lower
      decide
  | text => exact fun _ member => absurd member List.not_mem_nil
  | reference => exact (by decide : ∀ c ∈ ['&'], Text.isBlank c = false ∧ c ≠ 'x')
  | characterData => exact (by decide : ∀ c ∈ "<![CDATA[".toList, Text.isBlank c = false ∧ c ≠ 'x')
  | instruction => exact (by decide : ∀ c ∈ ['<', '?'], Text.isBlank c = false ∧ c ≠ 'x')
  | _ => exact framed.elim

theorem Framed.mem_closing {p : Piece} (framed : p.Framed) : ∀ c ∈ p.closing, c ∈ ';' :: sectionStops := by
  cases p with
  | text => exact fun _ member => absurd member List.not_mem_nil
  | reference => exact (by decide : ∀ c ∈ [';'], c ∈ ';' :: sectionStops)
  | characterData => exact (by decide : ∀ c ∈ [']', ']', '>'], c ∈ ';' :: sectionStops)
  | doctype => exact (by decide : ∀ c ∈ ['>'], c ∈ ';' :: sectionStops)
  | instruction => exact (by decide : ∀ c ∈ ['?', '>'], c ∈ ';' :: sectionStops)
  | _ => exact framed.elim

/-- Neither does its closing. -/
theorem Framed.closing {p : Piece} (framed : p.Framed) : ∀ c ∈ p.closing, Text.isBlank c = false ∧ c ≠ 'x' := by
  have all : ∀ c ∈ ';' :: sectionStops, Text.isBlank c = false ∧ c ≠ 'x' := by decide
  exact fun c member => all c (framed.mem_closing c member)

theorem Framed.mem_bodyStops {p : Piece} (framed : p.Framed) {s : Text} (ends : p.isRun = true → EndsRuns s) :
    ∀ c ∈ (p.closing ++ s).head?, c ∈ bodyStops := by
  cases p with
  | text run =>
    intro c head
    have mark := ends rfl c head
    simp only [endsRun, Bool.or_eq_true, decide_eq_true_eq] at mark
    rcases mark with rfl | rfl <;> decide
  | reference => exact fun c head => Option.some.inj head ▸ (by decide)
  | characterData | doctype | instruction =>
    exact fun c head => List.mem_append_right _ (mem_sectionStops rfl c head)
  | _ => exact framed.elim

/-- A piece that is read back is framed, if it is no tag and no comment. -/
theorem framed_of_readsBack {p : Piece} (back : p.ReadsBack) (noTag : p.isTag = false)
    (noComment : p.isComment = false) : p.Framed := by
  obtain ⟨c, s, source, read⟩ := back
  cases p with
  | text run =>
    obtain ⟨-, flat⟩ := readsBack_text_iff.mp ⟨c, s, source, read⟩
    intro d member
    have mark := flat d member
    simp only [endsRun, Bool.or_eq_false_iff, decide_eq_false_iff_not] at mark
    simp [mark]
  | reference body =>
    obtain ⟨rfl, rfl⟩ := List.cons.inj source
    exact free_of_readReference (read [] fun run => by cases run)
  | doctype keyword content =>
    obtain ⟨rfl, rfl⟩ := List.cons.inj source
    have read := read [] fun run => by cases run
    change readDeclaration (keyword ++ content ++ ['>'] ++ []) = _ at read
    rcases readDeclaration_eq_ok_iff.mp read with ⟨_, _, other, -⟩ | ⟨_, _, other, -⟩ |
      ⟨keyword', content', same, doctype, first, -, cut⟩
    · cases other
    · cases other
    · obtain ⟨rfl, rfl⟩ := Piece.doctype.inj same
      rw [List.append_nil, List.append_assoc, cutDeclaration_of_flat (flat_of_isDoctypeKeyword doctype),
        cutDeclaration_eq_some_iff] at cut
      exact ⟨doctype, first, cut⟩
  | characterData => trivial
  | instruction => trivial
  | comment => cases noComment
  | _ => cases noTag

/-!
A CDATA section and an instruction are read back if their closing stands nowhere else, and a DOCTYPE if it
declares something.
-/

theorem readsBack_characterData {body : Text} (absent : ¬ [']', ']', '>'] <:+: body) :
    (characterData body).ReadsBack := by
  refine ⟨'<', _, rfl, fun rest _ => ?_⟩
  have cut : Text.cut? [']', ']', '>'] (body ++ ']' :: ']' :: '>' :: rest) = some (body, rest) :=
    Text.cut?_of_not_infix [']', ']'] (by decide) absent rest
  have read : readDeclaration ("[CDATA[".toList ++ (body ++ ']' :: ']' :: '>' :: rest)) = .ok (.characterData body, rest) :=
    readDeclaration_eq_ok_iff.mpr (.inr (.inl ⟨body, _, rfl, rfl, cut⟩))
  simpa [Piece.read] using read

theorem readsBack_doctype {keyword content : Text} (framed : (doctype keyword content).Framed)
    (named : ∃ c ∈ content, Text.isBlank c = false) : (doctype keyword content).ReadsBack := by
  obtain ⟨doctype, first, bracketed⟩ := framed
  refine ⟨'<', _, rfl, fun rest _ => ?_⟩
  have named : content.all isSpace = false := by
    obtain ⟨c, member, noBlank⟩ := named
    rw [List.all_eq_false]
    refine ⟨c, member, fun space => ?_⟩
    rw [Text.isBlank_of_isSpace space] at noBlank
    cases noBlank
  have ends : cutDeclaration 0 (content ++ '>' :: rest) = some (content, rest) := cutDeclaration_eq_some_iff.mpr bracketed
  have cut := (cutDeclaration_of_flat (flat_of_isDoctypeKeyword doctype)).mpr ends
  have read : readDeclaration (keyword ++ (content ++ '>' :: rest)) = .ok (.doctype keyword content, rest) :=
    readDeclaration_eq_ok_iff.mpr (.inr (.inr ⟨keyword, content, rfl, doctype, first, named, cut⟩))
  simpa [Piece.read] using read

/-- The question mark an instruction begins with does not end it either. -/
theorem readsBack_instruction {body : Text} (absent : ¬ ['?', '>'] <:+: '?' :: body) : (instruction body).ReadsBack := by
  refine ⟨'<', _, rfl, fun rest _ => ?_⟩
  have cut : Text.cut? ['?', '>'] (body ++ '?' :: '>' :: rest) = some (body, rest) :=
    Text.cut?_of_not_infix ['?'] (by decide)
      (fun inside => absent (inside.trans (List.suffix_cons _ _).isInfix)) rest
  have first : (body ++ '?' :: '>' :: rest).head? ≠ some '>' := by
    cases body with
    | nil => exact fun head => absurd (Option.some.inj head) (by decide)
    | cons c body =>
      intro head
      obtain rfl := Option.some.inj head
      exact absent ⟨[], body, rfl⟩
  have read : readInstruction (body ++ '?' :: '>' :: rest) = .ok (.instruction body, rest) :=
    readInstruction_eq_ok_iff.mpr ⟨first, body, rfl, cut⟩
  simpa [Piece.read] using read

theorem readsBack_reference {body : Text} (free : Free [';', '&', '<'] body) : (reference body).ReadsBack := by
  refine ⟨'&', _, rfl, fun rest _ => ?_⟩
  have inside : ∀ c ∈ body, decide (c ≠ ';' ∧ c ≠ '&' ∧ c ≠ '<') = true := by
    intro c member
    have marks := free c member
    simp only [List.mem_cons, not_or] at marks
    simp [marks]
  have stop : ∀ c ∈ (';' :: rest).head?, decide (c ≠ ';' ∧ c ≠ '&' ∧ c ≠ '<') = false := by
    rintro c head
    obtain rfl := Option.some.inj head
    rfl
  unfold Piece.read
  rw [if_pos rfl, List.append_assoc, List.singleton_append, readReference, Text.dropWhile_append_of_stop inside stop,
    Text.takeWhile_append_of_stop inside stop]
  rfl

theorem solid_of_sound {p : Piece} (h : p.Sound) : p.Solid := by
  obtain ⟨framed, closed⟩ := h
  cases p with
  | text run =>
    intro c member
    have marks := framed c member
    simp only [List.mem_cons, not_or] at marks
    simp [endsRun, marks]
  | reference body => exact readsBack_reference framed
  | characterData body => exact readsBack_characterData fun inside => closed (Text.infix_unblanked (by decide) inside)
  | doctype keyword content => exact readsBack_doctype framed closed
  | instruction body =>
    exact readsBack_instruction fun inside => closed (Text.infix_unblanked (u := '?' :: body) (by decide) inside)
  | _ => exact framed.elim

end Piece

/-! ## Bodies in which nothing is found -/

/-- What is looked for where comments and metadata are removed. -/
def removedStarts : List Text := ["<!--", "<metadata", "</metadata"].map String.toList

/-- No comment and no metadata begins or ends in the text. -/
def Unmarked (u : Text) : Prop := ∀ start ∈ removedStarts, ¬ start <:+: u

instance (u : Text) : Decidable (Unmarked u) := inferInstanceAs (Decidable (∀ start ∈ removedStarts, _))

/-- The text begins like the tag of a group, and not like one with a longer name. -/
def BeginsGroup (w : Text) : Prop :=
  ['<', 'g'] <+: w ∧ ∀ c ∈ (w.drop 2).head?, Text.isBlank c = true ∨ c = '/' ∨ c = '>'

instance (w : Text) : Decidable (BeginsGroup w) := inferInstanceAs (Decidable (_ ∧ ∀ c ∈ (w.drop 2).head?, _))

/-- The text begins like a tag with a name, and with a style before the first character that can end it. -/
def BeginsStyled (w : Text) : Prop :=
  ['<'] <+: w ∧ Shrink.styleStart <:+: w.takeWhile (· ≠ '>') ∧ ∃ c ∈ (w.drop 1).head?, Shrink.isNamePart c = true

instance (w : Text) : Decidable (BeginsStyled w) :=
  inferInstanceAs (Decidable (_ ∧ _ ∧ ∃ c ∈ (w.drop 1).head?, Shrink.isNamePart c = true))

/-- Nothing in the text looks like the tag of a group or one with a style, as far as a level looks for them. -/
structure Untagged (level : Shrink.Level) (u : Text) : Prop where
  group : level ≠ .light → ∀ w ∈ u.tails, ¬ BeginsGroup w
  style : level = .aggressive → ∀ w ∈ u.tails, ¬ BeginsStyled w

instance (level : Shrink.Level) (u : Text) : Decidable (Untagged level u) :=
  decidable_of_iff ((level ≠ .light → ∀ w ∈ u.tails, ¬ BeginsGroup w) ∧
      (level = .aggressive → ∀ w ∈ u.tails, ¬ BeginsStyled w))
    ⟨fun ⟨group, style⟩ => ⟨group, style⟩, fun h => ⟨h.group, h.style⟩⟩

namespace Piece

/-- What is left of the piece when attributes without a value are removed from it. -/
def cleared (p : Piece) : Piece := p.withBody (Shrink.removeEmptyAttributes p.body)

/-- A piece other than a tag or a comment, in which no markup is found. -/
structure Clean (level : Shrink.Level) (p : Piece) : Prop where
  framed : p.Framed
  unmarked : p.isSection = true → Unmarked p.body
  closed : p.cleared.Closed
  untagged : p.isSection = true → Untagged level p.cleared.body

/-- The same once comments, metadata and attributes without a value are removed. -/
structure Inert (level : Shrink.Level) (p : Piece) : Prop where
  framed : p.Framed
  closed : p.Closed
  untagged : p.isSection = true → Untagged level p.body

variable {level : Shrink.Level}

theorem Inert.sound {p : Piece} (h : p.Inert level) : p.Sound := ⟨h.framed, h.closed⟩

/-! Runs of text put together are one run. -/

theorem framed_join {r r' : Text} (left : (text r).Framed) (right : (text r').Framed) : (text (r ++ r')).Framed :=
  Free.append left right

theorem clean_join {r r' : Text} (left : (text r).Clean level) (right : (text r').Clean level) :
    (text (r ++ r')).Clean level := ⟨framed_join left.framed right.framed, nofun, trivial, nofun⟩

theorem inert_join {r r' : Text} (left : (text r).Inert level) (right : (text r').Inert level) :
    (text (r ++ r')).Inert level := ⟨framed_join left.framed right.framed, trivial, nofun⟩

theorem sound_join {r r' : Text} (left : (text r).Sound) (right : (text r').Sound) : (text (r ++ r')).Sound :=
  ⟨framed_join left.framed right.framed, trivial⟩

end Piece
end SvgEdit
