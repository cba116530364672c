import SvgEdit.Proofs.Rounding

/-!
# Documents with rounded decimals

Shortening decimals works on a text without looking at its markup. It still keeps the tree: wherever a
decimal stands between delimiters, the document that is read afterwards differs in that attribute value
or raw node at most, as long as no name holds such a decimal. XML declarations are kept apart from the
other raw nodes, as a version is no measure.
-/
namespace SvgEdit

open SvgEdit.Shrink

/-! ## What may differ -/

/-- An XML declaration, which is an instruction with the target `xml`. -/
def IsDeclaration (s : Text) : Prop := ∃ c rest, s = "<?xml".toList ++ c :: rest ∧ (isSpace c = true ∨ c = '?')

/--
What becomes of a raw node. An XML declaration stays one; it stays as it is without a decimal between
delimiters, and nothing is said of the decimals of another one. In any other node decimals are rounded;
what stands before it may be a delimiter, nothing after it is.
-/
structure RoundsRaw (places : Nat) (s t : Text) : Prop where
  declaration : IsDeclaration s → IsDeclaration t
  unchanged : IsDeclaration s → Undelimited none s → t = s
  other : ¬ IsDeclaration s → ∃ before, Rounds places none before s t

/-- An attribute whose value was rounded as it is written between its quotes. -/
structure Attribute.RoundsTo (places : Nat) (a a' : Attribute) : Prop where
  name : a'.name = a.name
  raw : ∃ quote : QuoteMark, Rounds places (some quote.char) (some quote.char) a.written.spelling.raw a'.written.spelling.raw
  value : unescape a'.written.spelling.raw = .ok a'.value

/-- A tag with the same name, of the same kind, with attributes of the same names in the same order. -/
structure Tag.RoundsTo (places : Nat) (t t' : Tag) : Prop where
  name : t'.name = t.name
  kind : t'.selfClosing = t.selfClosing
  attributes : List.Forall₂ (Attribute.RoundsTo places) t.attributes t'.attributes

/-- The same tree, but for what rounding changes in tags and raw nodes. -/
inductive Content.RoundsTo (places : Nat) : Content → Content → Prop
  | nil : Content.RoundsTo places .nil .nil
  | raw {s t : Text} {next next' : Content} (here : RoundsRaw places s t) (later : Content.RoundsTo places next next') :
      Content.RoundsTo places (.raw s next) (.raw t next')
  | element {tag tag' : Tag} {inside inside' next next' : Content} (here : tag.RoundsTo places tag')
      (within : Content.RoundsTo places inside inside') (later : Content.RoundsTo places next next') :
      Content.RoundsTo places (.element tag inside next) (.element tag' inside' next')

/-- The same document, but for what rounding changes in tags and raw nodes. -/
structure Document.RoundsTo (places : Nat) (d d' : Document) : Prop where
  prolog : List.Forall₂ (RoundsRaw places) d.prolog d'.prolog
  tag : d.root.tag.RoundsTo places d'.root.tag
  content : d.root.content.RoundsTo places d'.root.content
  epilog : List.Forall₂ (RoundsRaw places) d.epilog d'.epilog

/--
The names of the tag hold no decimal between delimiters. As blanks may follow them, the end of each name is
a delimiter, and so is the beginning of a key.
-/
structure Tag.UndelimitedNames (t : Tag) : Prop where
  name : Undelimited none t.name
  keys : ∀ a ∈ t.attributes, Undelimited (some ' ') a.name

theorem Tag.undelimitedNames_of_no_point {t : Tag} (name : '.' ∉ t.name) (keys : ∀ a ∈ t.attributes, '.' ∉ a.name) :
    t.UndelimitedNames :=
  ⟨undelimited_of_no_point name, fun a member => undelimited_of_no_point (keys a member)⟩

/-! ## Tags -/

theorem noDecimal_of_isSpace {c : Char} (space : isSpace c = true) : c.isDigit = false ∧ c ≠ '.' ∧ c ≠ '-' := by
  simp only [isSpace, Bool.or_eq_true, decide_eq_true_eq] at space
  rcases space with ((rfl | rfl) | rfl) | rfl <;> decide

theorem noDecimal_char (quote : QuoteMark) :
    quote.char.isDigit = false ∧ quote.char ≠ '.' ∧ quote.char ≠ '-' ∧ isNumberPart quote.char = false := by
  cases quote <;> decide

/-- An attribute as it is written, and what rounding makes of it. -/
structure WrittenAttribute.RoundsTo (places : Nat) (w w' : WrittenAttribute) : Prop where
  key : w'.key = w.key
  raw : ∃ quote : QuoteMark, Rounds places (some quote.char) (some quote.char) w.spelling.raw w'.spelling.raw

namespace Rounds

variable {places : Nat} {before after : Option Char} {inside inside' : Text}

/-- The name of a tag stays, and what follows it is rounded by itself. -/
theorem tagName (h : Rounds places after before inside inside') (undelimited : Undelimited before (tagName inside)) :
    SvgEdit.tagName inside' = SvgEdit.tagName inside ∧
      ∃ last, Rounds places after last (tagAttributes inside) (tagAttributes inside') := by
  have parts : ∀ c, isNumberPart c = true → (!isSpace c) = true := fun c part => by rw [isSpace_of_isNumberPart part]; rfl
  obtain ⟨front, back⟩ := h.span parts
  exact ⟨front.eq_of_undelimited undelimited, back⟩

theorem noDecimal_of_spaces {u : Text} (blank : Spaces u) : ∀ c ∈ u, c.isDigit = false ∧ c ≠ '-' := fun c member =>
  ⟨(noDecimal_of_isSpace (blank c member)).1, (noDecimal_of_isSpace (blank c member)).2.2⟩

/-- Between the key and the opening quote nothing is rounded. -/
theorem exists_assignment {between behind raw rest : Text} {quote : QuoteMark} (blank : Spaces between) (blank' : Spaces behind)
    (h : Rounds places after before (between ++ '=' :: (behind ++ quote.char :: (raw ++ quote.char :: rest))) inside') :
    ∃ t, inside' = between ++ '=' :: (behind ++ quote.char :: t) ∧
      Rounds places after (some quote.char) (raw ++ quote.char :: rest) t := by
  obtain ⟨noDigit, -, noMinus, -⟩ := noDecimal_char quote
  have whole : between ++ '=' :: (behind ++ quote.char :: (raw ++ quote.char :: rest)) =
      (between ++ '=' :: (behind ++ [quote.char])) ++ (raw ++ quote.char :: rest) := by simp
  rw [whole] at h
  obtain ⟨t, rfl, later⟩ := h.exists_keptText fun d member => by
    simp only [List.mem_append, List.mem_cons, List.not_mem_nil, or_false] at member
    rcases member with member | rfl | member | rfl
    · exact noDecimal_of_spaces blank d member
    · decide
    · exact noDecimal_of_spaces blank' d member
    · exact ⟨noDigit, noMinus⟩
  have opening : (between ++ '=' :: (behind ++ [quote.char])).getLast? = some quote.char := by
    rw [List.getLast?_append]
    simp [List.getLast?_cons]
  rw [opening] at later
  exact ⟨t, by simp, later⟩

/-- The key of an attribute stays, and its value is rounded by itself. -/
theorem exists_assigns {s t key raw rest : Text} {first : Char} {quote : QuoteMark} (assigns : Assigns s key raw quote rest)
    (h : Rounds places after before (first :: s) t) (undelimited : Undelimited before (first :: key)) :
    ∃ s' raw' rest' last, t = first :: s' ∧ Assigns s' key raw' quote rest' ∧
      Rounds places (some quote.char) (some quote.char) raw raw' ∧ Rounds places after last rest rest' := by
  obtain ⟨⟨between, behind, rfl, blank, blank'⟩, inKey, closed⟩ := assigns
  obtain ⟨noDigit, noPoint, noMinus, other⟩ := noDecimal_char quote
  obtain ⟨c, more, follows, noDigit', noPoint'⟩ : ∃ c more,
      between ++ '=' :: (behind ++ quote.char :: (raw ++ quote.char :: rest)) = c :: more ∧ c.isDigit = false ∧ c ≠ '.' := by
    cases between with
    | nil => exact ⟨'=', _, rfl, by decide, by decide⟩
    | cons c between =>
      have space := noDecimal_of_isSpace (blank c List.mem_cons_self)
      exact ⟨c, _, rfl, space.1, space.2.1⟩
  rw [List.append_assoc, follows] at h
  obtain ⟨key', t₁, rfl, same, h₁⟩ := exists_parts (u := first :: key) h noDigit' noPoint'
  obtain rfl := same.eq_of_undelimited undelimited
  rw [← follows] at h₁
  obtain ⟨t₂, rfl, h₂⟩ := exists_assignment blank blank' h₁
  obtain ⟨raw', rest', rfl, value, later⟩ := h₂.exists_part noDigit noPoint noMinus
  exact ⟨_, raw', rest', _, rfl, ⟨⟨between, behind, by simp, blank, blank'⟩, inKey, value.not_mem closed other⟩, value, later⟩

/-- Keys stay, and each value is rounded by itself. -/
theorem exists_splits {seen : List Text} {s t : Text} {written : List WrittenAttribute} (splits : Splits seen s written)
    (h : Rounds places after before s t) (keys : ∀ w ∈ written, Undelimited (some ' ') w.key) :
    ∃ written', Splits seen t written' ∧ List.Forall₂ (WrittenAttribute.RoundsTo places) written written' := by
  induction splits generalizing before t with
  | done blank =>
    obtain rfl := h.eq_of_noDigit fun c member => (noDecimal_of_isSpace (blank c member)).1
    exact ⟨[], .done blank, .nil⟩
  | @assign seen front _ key raw rest first quote written blank begins new assigns _ ih =>
    obtain ⟨here, keys⟩ := List.forall_mem_cons.mp keys
    obtain ⟨t₁, rfl, h₁⟩ := h.exists_keptText (noDecimal_of_spaces blank)
    obtain ⟨s', raw', rest', last, rfl, assigns', value, h₂⟩ := h₁.exists_assigns assigns (here.mono fun _ => rfl)
    obtain ⟨written', splits', alike⟩ := ih h₂ keys
    exact ⟨⟨first :: key, raw', quote⟩ :: written', .assign blank begins new assigns' splits', .cons ⟨rfl, quote, value⟩ alike⟩

end Rounds

/-- The values of rounded attributes can be unescaped, if those before could. -/
theorem exists_unescapeAll_of_roundsTo {places : Nat} {written written' : List WrittenAttribute} {marks : List QuoteMark}
    {as : Attributes} (values : unescapeAll written marks = .ok as)
    (alike : List.Forall₂ (WrittenAttribute.RoundsTo places) written written') (marks' : List QuoteMark) :
    ∃ as', unescapeAll written' marks' = .ok as' ∧ List.Forall₂ (Attribute.RoundsTo places) as as' := by
  induction alike generalizing marks marks' as with
  | nil =>
    obtain rfl := Except.ok.inj values
    exact ⟨[], rfl, .nil⟩
  | @cons w w' written written' here _ ih =>
    obtain ⟨value, rest, read, later, rfl⟩ := unescapeAll_cons_eq_ok_iff.mp values
    obtain ⟨quote, raw⟩ := here.raw
    obtain ⟨value', read'⟩ := exists_unescape_iff.mpr (raw.references (exists_unescape_iff.mp ⟨value, read⟩))
    obtain ⟨as', later', alike'⟩ := ih later marks'.tail
    exact ⟨_, unescapeAll_cons_eq_ok_iff.mpr ⟨value', as', read', later', rfl⟩, .cons ⟨here.key, ⟨quote, raw⟩, read'⟩ alike'⟩

/-- A tag is read as the same tag with rounded values. -/
theorem Rounds.exists_tagElement {places : Nat} {before after : Option Char} {inside inside' : Text} {selfClosing : Bool}
    {e : Element} (h : Rounds places after before inside inside') (none : ¬ Delimits before)
    (tag : Assembly.tagElement inside selfClosing = .ok e) (undelimited : e.tag.UndelimitedNames) :
    ∃ tag', Assembly.tagElement inside' selfClosing = .ok ⟨tag', .nil⟩ ∧ e.tag.RoundsTo places tag' := by
  obtain ⟨as, read, rfl⟩ := Assembly.tagElement_eq_ok_iff.mp tag
  obtain ⟨written, splits, values⟩ := readAttributes_eq_ok_iff.mp read
  obtain ⟨name, last, attributes⟩ := h.tagName (undelimited.name.mono fun opens => absurd opens none)
  have keys : ∀ w ∈ written, Undelimited (some ' ') w.key := by
    intro w member
    have listed : w.key ∈ as.map (·.name) := names_of_unescapeAll values ▸ List.mem_map_of_mem member
    obtain ⟨a, listed, same⟩ := List.mem_map.mp listed
    exact same ▸ undelimited.keys a listed
  obtain ⟨written', splits', alike⟩ := exists_splits splits attributes keys
  obtain ⟨as', values', alike'⟩ := exists_unescapeAll_of_roundsTo values alike (quoteMarks (tagAttributes inside'))
  exact ⟨_, Assembly.tagElement_eq_ok_iff.mpr ⟨as', readAttributes_eq_ok_iff.mpr ⟨written', splits', values'⟩, rfl⟩,
    name, rfl, alike'⟩

/-! ## Raw nodes -/

/-- Nothing of what a declaration begins with is part of a decimal. -/
theorem Rounds.isDeclaration {places : Nat} {after before : Option Char} {s t : Text} (h : Rounds places after before s t)
    (declares : IsDeclaration s) : IsDeclaration t := by
  obtain ⟨c, rest, rfl, ends⟩ := declares
  have noDecimal : c.isDigit = false ∧ c ≠ '-' := by
    rcases ends with space | rfl
    · exact ⟨(noDecimal_of_isSpace space).1, (noDecimal_of_isSpace space).2.2⟩
    · decide
  obtain ⟨t₁, rfl, later⟩ := h.exists_keptText (by decide)
  obtain ⟨t₂, rfl, -⟩ := later.exists_kept (.inr noDecimal)
  exact ⟨c, t₂, rfl, ends⟩

theorem RoundsRaw.of_rounds {places : Nat} (before : Option Char) {s t : Text} (h : Rounds places none before s t) :
    RoundsRaw places s t := by
  refine ⟨h.isDeclaration, fun declares undelimited => ?_, fun _ => ⟨before, h⟩⟩
  obtain ⟨c, rest, rfl, -⟩ := declares
  obtain ⟨t', rfl, later⟩ := h.exists_kept (.inr (by decide))
  exact Rounds.eq_of_undelimited (.keep '<' later) undelimited

/-! ## Pieces -/

/-- A piece and what rounding makes of it. -/
inductive Piece.RoundsTo (places : Nat) : Piece → Piece → Prop
  | other {p p' : Piece} (other : p.isTag = false) (other' : p'.isTag = false)
      (outside : p.isOutside = true → p'.isOutside = true) (kept : RoundsRaw places p.kept p'.kept) :
      Piece.RoundsTo places p p'
  | startTag {inside inside' : Text} (rounds : Rounds places (some '>') (some '<') inside inside') :
      Piece.RoundsTo places (.startTag inside) (.startTag inside')
  | emptyTag {inside inside' : Text} (rounds : Rounds places (some '/') (some '<') inside inside') :
      Piece.RoundsTo places (.emptyTag inside) (.emptyTag inside')
  | endTag {inside inside' : Text} (rounds : Rounds places (some '>') (some '/') inside inside') :
      Piece.RoundsTo places (.endTag inside) (.endTag inside')

/-- Markup around a body that was rounded. -/
theorem Rounds.raw {places : Nat} {after before : Option Char} {body body' : Text} {c : Char}
    (h : Rounds places after before body body') (front close : Text) (front_ : front.getLast?.or none = before) (close_ : (close ++ [c]).head? = after) :
    RoundsRaw places (front ++ (body ++ (close ++ [c]))) (front ++ (body' ++ (close ++ [c]))) := by
  refine .of_rounds none (.append_left (.append_right ?_))
  rw [front_, close_]
  cases after <;> exact h

namespace Rounds

variable {places : Nat} {before : Option Char} {s t : Text}

theorem not_delimits {c : Char} (none : isNumberDelimiter c = false) : ¬ Delimits (some c) := by
  simpa [Delimits] using none

theorem exists_readReference (h : Rounds places none (some '&') s t) {p : Piece} {rest : Text}
    (read : readReference s = .ok (p, rest)) :
    ∃ p' rest' last, readReference t = .ok (p', rest') ∧ p.RoundsTo places p' ∧ Rounds places none last rest rest' := by
  unfold readReference at read
  split at read
  · next rest stops =>
    simp only [Except.ok.injEq, Prod.mk.injEq] at read
    obtain ⟨rfl, rfl⟩ := read
    have parts : ∀ c, isNumberPart c = true → (fun c => decide (c ≠ ';' ∧ c ≠ '&' ∧ c ≠ '<')) c = true := by
      intro c part
      rw [decide_eq_true_eq]
      refine ⟨?_, ?_, ?_⟩ <;> (rintro rfl; cases part)
    obtain ⟨body, last, back⟩ := h.span parts
    rw [stops] at body back
    obtain ⟨rest', stops', later⟩ := back.exists_kept (.inr (by decide))
    refine ⟨.reference (t.takeWhile fun c => c ≠ ';' ∧ c ≠ '&' ∧ c ≠ '<'), rest', _, ?_, ?_, later⟩
    · simp only [readReference, stops']
    · exact .other rfl rfl id (body.raw ['&'] [] rfl rfl)
  · cases read

theorem exists_readInstruction (h : Rounds places none (some '?') s t) {p : Piece} {rest : Text}
    (read : readInstruction s = .ok (p, rest)) :
    ∃ p' rest' last, readInstruction t = .ok (p', rest') ∧ p.RoundsTo places p' ∧ Rounds places none last rest rest' := by
  obtain ⟨first, body, rfl, cut⟩ := readInstruction_eq_ok_iff.mp read
  obtain ⟨body', rest', last, cut', part, later⟩ := h.exists_cut? ⟨by decide, by decide⟩ cut
  refine ⟨.instruction body', rest', last, readInstruction_eq_ok_iff.mpr ⟨?_, body', rfl, cut'⟩,
    .other rfl rfl id (part.raw ['<', '?'] ['?'] rfl rfl), later⟩
  cases s with
  | nil =>
    obtain rfl := h.eq_nil_iff.mpr rfl
    exact first
  | cons c s =>
    obtain ⟨t, rfl, -⟩ := h.exists_kept (.inl (not_delimits (by decide)))
    exact first

/-- The keyword of a document type stays, and what follows it is rounded by itself. -/
theorem exists_doctype (h : Rounds places none (some '!') s t) {keyword content rest : Text}
    (doctype : isDoctypeKeyword keyword = true) (first : ∀ c ∈ keyword.head?, c = 'D' ∨ c = 'd')
    (named : content.all isSpace = false) (cut : SvgEdit.cutDeclaration 0 s = some (keyword ++ content, rest)) :
    ∃ p' rest' last, readDeclaration t = .ok (p', rest') ∧
      (Piece.doctype keyword content).RoundsTo places p' ∧ Rounds places none last rest rest' := by
  have alphanum : ∀ c ∈ keyword, isNumberDelimiter c = false := fun c member => by
    refine isNumberDelimiter_of_isNumberPart ?_
    rw [isNumberPart, Char.isAlphanum, isAlpha_of_isDoctypeKeyword doctype c member]
    rfl
  obtain ⟨inside', rest', cut', part, later⟩ := h.exists_cutDeclaration cut
  obtain ⟨content', rfl, h₁⟩ := part.exists_joined (not_delimits (by decide)) alphanum
  obtain ⟨last, h₂⟩ := h₁.exists_dropWhile_isSpace
  refine ⟨.doctype keyword content', rest', _,
    readDeclaration_eq_ok_iff.mpr (.inr (.inr ⟨keyword, content', rfl, doctype, first, ?_, cut'⟩)), ?_, later⟩
  · have solid {u : Text} : u.all isSpace = false ↔ u.dropWhile isSpace ≠ [] := by
      rw [ne_eq, List.dropWhile_eq_nil_iff, ← List.all_eq_true, Bool.not_eq_true]
    rw [solid] at named ⊢
    exact mt h₂.eq_nil_iff.mp named
  · exact .other rfl rfl id ((h₂.mono (some ' ') _ (fun _ => rfl) id).raw "<!DOCTYPE ".toList [] rfl rfl)

theorem exists_readDeclaration (h : Rounds places none (some '!') s t) {p : Piece} {rest : Text}
    (read : readDeclaration s = .ok (p, rest)) :
    ∃ p' rest' last, readDeclaration t = .ok (p', rest') ∧ p.RoundsTo places p' ∧ Rounds places none last rest rest' := by
  rcases readDeclaration_eq_ok_iff.mp read with ⟨body, s, rfl, rfl, cut⟩ | ⟨body, s, rfl, rfl, cut⟩ |
    ⟨keyword, content, rfl, doctype, first, named, cut⟩
  · obtain ⟨t, rfl, h₁⟩ := exists_joined (u := ['-', '-']) h (not_delimits (by decide)) (by decide)
    obtain ⟨body', rest', last, cut', part, later⟩ := h₁.exists_cut? ⟨by decide, by decide⟩ cut
    exact ⟨.comment body', rest', last, readDeclaration_eq_ok_iff.mpr (.inl ⟨body', t, rfl, rfl, cut'⟩),
      .other rfl rfl id (part.raw ['<', '!', '-', '-'] ['-', '-'] rfl rfl), later⟩
  · obtain ⟨t, rfl, h₁⟩ := h.exists_joined (not_delimits (by decide)) (by decide)
    obtain ⟨body', rest', last, cut', part, later⟩ := h₁.exists_cut? ⟨by decide, by decide⟩ cut
    exact ⟨.characterData body', rest', last, readDeclaration_eq_ok_iff.mpr (.inr (.inl ⟨body', t, rfl, rfl, cut'⟩)),
      .other rfl rfl id (part.raw "<![CDATA[".toList [']', ']'] rfl rfl), later⟩
  · exact h.exists_doctype doctype first named cut

/-- The inside of a tag still begins like that of no other markup. -/
theorem beginsTag {after : Option Char} {inside inside' : Text} (h : Rounds places after (some '<') inside inside')
    (begins : BeginsTag inside) : BeginsTag inside' := by
  cases inside with
  | nil =>
    obtain rfl := h.eq_nil_iff.mpr rfl
    exact begins
  | cons c inside =>
    obtain ⟨t, rfl, -⟩ := h.exists_kept (.inl (not_delimits (by decide)))
    exact begins

theorem exists_readTag (h : Rounds places none (some '<') s t) {p : Piece} {rest : Text} (read : readTag s = .ok (p, rest))
    (other : ∀ c ∈ s.head?, c ≠ '!' ∧ c ≠ '?') :
    ∃ p' rest' last, Piece.read '<' t = .ok (p', rest') ∧ p.RoundsTo places p' ∧ Rounds places none last rest rest' := by
  rcases readTag_cases read with ⟨inside, rfl, tail, rfl, cut⟩ | ⟨inside, rfl, nonempty, first, cut⟩ |
    ⟨inside, rfl, last, first, cut⟩
  · obtain ⟨t, rfl, h₁⟩ := h.exists_kept (.inl (not_delimits (by decide)))
    obtain ⟨inside', rest', cut', part, later⟩ := h₁.exists_cutTag cut
    obtain rfl := eq_append_of_cutTag cut'
    exact ⟨.endTag inside', rest', _, read_endTag cut', .endTag part, later⟩
  · obtain ⟨whole', rest', cut', part, later⟩ := h.exists_cutTag cut
    obtain ⟨ends, part⟩ := part.dropLast (not_delimits (by decide))
    rw [List.getLast?_concat] at ends part
    obtain ⟨inside', rfl⟩ := List.getLast?_eq_some_iff.mp ends
    rw [List.dropLast_concat, List.dropLast_concat] at part
    have begins := beginsTag_of_cutTag cut ⟨['/'], rfl⟩ first other
    obtain rfl := eq_append_of_cutTag cut'
    rw [List.append_assoc] at cut' ⊢
    exact ⟨.emptyTag inside', rest', _, read_emptyTag (mt part.eq_nil_iff.mp nonempty) (part.beginsTag begins) cut',
      .emptyTag part, later⟩
  · obtain ⟨inside', rest', cut', part, later⟩ := h.exists_cutTag cut
    have begins := beginsTag_of_cutTag cut (List.prefix_refl _) first other
    obtain rfl := eq_append_of_cutTag cut'
    have last' := (part.dropLast (not_delimits (by decide))).1
    exact ⟨.startTag inside', rest', _, read_startTag (part.beginsTag begins) (by rwa [last']) cut', .startTag part, later⟩

/-- There is no decimal among blanks. -/
theorem eq_of_isBlankText {after : Option Char} (h : Rounds places after before s t) (blank : Text.isBlankText s = true) :
    t = s := by
  refine h.eq_of_noDigit fun c member => ?_
  have blank : Text.isBlank c = true := List.all_eq_true.mp blank c member
  cases digit : c.isDigit with
  | false => rfl
  | true =>
    rw [Text.isBlank_of_isAlphanum (isAlphanum_of_isDigit digit)] at blank
    cases blank

theorem endsRun_of_isNumberPart (c : Char) (part : isNumberPart c = true) : (!endsRun c) = true := by
  cases run : endsRun c with
  | false => rfl
  | true =>
    simp only [endsRun, Bool.or_eq_true, decide_eq_true_eq] at run
    rcases run with rfl | rfl <;> cases part

/-- A run of text stays one, and ends where it ended. -/
theorem exists_text {c : Char} (h : Rounds places none before (c :: s) t) (ends : endsRun c = false) :
    ∃ d t₁ last, t = d :: t₁ ∧ endsRun d = false ∧
      (Piece.text (c :: s.takeWhile (!endsRun ·))).RoundsTo places (.text (d :: t₁.takeWhile (!endsRun ·))) ∧
      Rounds places none last (s.dropWhile (!endsRun ·)) (t₁.dropWhile (!endsRun ·)) := by
  obtain ⟨front, last, back⟩ := h.span endsRun_of_isNumberPart
  rw [List.takeWhile_cons_of_pos (by simp [ends]), List.dropWhile_cons_of_pos (by simp [ends])] at front
  rw [List.dropWhile_cons_of_pos (by simp [ends])] at back
  obtain ⟨d, t, rfl⟩ := List.exists_cons_of_ne_nil (mt h.eq_nil_iff.mp (List.cons_ne_nil c s))
  have going : endsRun d = false := by
    by_contra stop
    have nothing := front.eq_nil_iff.mp (List.takeWhile_cons_of_neg (by simpa using stop))
    cases nothing
  rw [List.takeWhile_cons_of_pos (by simp [going])] at front
  rw [List.dropWhile_cons_of_pos (by simp [going])] at back
  refine ⟨d, t, last, rfl, going, .other rfl rfl (fun blank => (front.eq_of_isBlankText blank).symm ▸ blank) (.of_rounds before ?_), back⟩
  refine front.mono before none id fun closes => ?_
  cases rest : s.dropWhile (!endsRun ·) with
  | nil => rwa [rest] at closes
  | cons e rest =>
    have stop := Text.stops_dropWhile (!endsRun ·) s e (by rw [rest]; rfl)
    rw [rest] at closes
    simp only [endsRun, Bool.not_eq_false', Bool.or_eq_true, decide_eq_true_eq] at stop
    rcases stop with rfl | rfl <;> exact absurd closes (not_delimits (by decide))

/-- A piece is read as one of its kind. -/
theorem exists_read {c : Char} (h : Rounds places none before (c :: s) t) {p : Piece} {rest : Text}
    (read : Piece.read c s = .ok (p, rest)) :
    ∃ d t₁ p' rest' last, t = d :: t₁ ∧ Piece.read d t₁ = .ok (p', rest') ∧ p.RoundsTo places p' ∧
      Rounds places none last rest rest' := by
  rcases read_cases read with ⟨rfl, reference⟩ | ⟨rfl, markup⟩ | ⟨ends, rfl, rfl⟩
  · obtain ⟨t, rfl, h₁⟩ := h.exists_kept (.inr (by decide))
    obtain ⟨p', rest', last, read', alike, later⟩ := h₁.exists_readReference reference
    exact ⟨'&', t, p', rest', last, rfl, read', alike, later⟩
  · obtain ⟨t, rfl, h₁⟩ := h.exists_kept (.inr (by decide))
    rcases read_less_cases markup with ⟨s, rfl, declaration⟩ | ⟨s, rfl, instruction⟩ | ⟨other, tag⟩
    · obtain ⟨t, rfl, h₂⟩ := h₁.exists_kept (.inr (by decide))
      obtain ⟨p', rest', last, read', alike, later⟩ := h₂.exists_readDeclaration declaration
      exact ⟨'<', _, p', rest', last, rfl, read', alike, later⟩
    · obtain ⟨t, rfl, h₂⟩ := h₁.exists_kept (.inr (by decide))
      obtain ⟨p', rest', last, read', alike, later⟩ := h₂.exists_readInstruction instruction
      exact ⟨'<', _, p', rest', last, rfl, read', alike, later⟩
    · obtain ⟨p', rest', last, read', alike, later⟩ := h₁.exists_readTag tag other
      exact ⟨'<', _, p', rest', last, rfl, read', alike, later⟩
  · obtain ⟨d, t, last, rfl, going, alike, later⟩ := h.exists_text ends
    exact ⟨d, t, _, _, last, rfl, read_text going t, alike, later⟩

end Rounds

/-! ## Content -/

variable {places : Nat}

theorem Cut.exists_rounded {s t : Text} {ps : List Piece} (cut : Cut s ps) {before : Option Char}
    (h : Rounds places none before s t) : ∃ ps', Cut t ps' ∧ List.Forall₂ (Piece.RoundsTo places) ps ps' := by
  induction cut generalizing before t with
  | done =>
    obtain rfl := h.eq_nil_iff.mpr rfl
    exact ⟨[], .done, .nil⟩
  | piece read _ ih =>
    obtain ⟨d, t, p', rest', last, rfl, read', alike, later⟩ := h.exists_read read
    obtain ⟨ps', cut', alikes⟩ := ih later
    exact ⟨p' :: ps', .piece read' cut', .cons alike alikes⟩

/-- The end tag of an element stays as it is. -/
theorem Rounds.endTag {after before : Option Char} {close close' : Text} (h : Rounds places after before close close')
    (opened : ¬ Delimits before) (undelimited : Undelimited none (Piece.endName close)) : close' = close := by
  obtain ⟨blanks, whole, blank⟩ := Text.exists_dropWhileEnd isSpace close
  have noDigit : ∀ c ∈ blanks, c.isDigit = false := fun c member => (noDecimal_of_isSpace (blank c member)).1
  rw [Piece.endName] at undelimited
  split at undelimited
  · next nothing =>
    rw [nothing, List.nil_append] at whole
    exact h.eq_of_noDigit (whole ▸ noDigit)
  · have stays := undelimited.mono fun opens => absurd opens opened
    rw [whole] at h ⊢
    cases blanks with
    | nil =>
      rw [List.append_nil] at h ⊢
      exact h.eq_of_undelimited stays
    | cons c blanks =>
      have space := noDecimal_of_isSpace (blank c List.mem_cons_self)
      obtain ⟨name, rest, rfl, part, later⟩ := h.exists_parts space.1 space.2.1
      rw [part.eq_of_undelimited stays, later.eq_of_noDigit noDigit]

theorem exists_append_of_forall₂ {α β : Type} {R : α → β → Prop} {xs ys : List α} {zs : List β}
    (h : List.Forall₂ R (xs ++ ys) zs) : ∃ us vs, zs = us ++ vs ∧ List.Forall₂ R xs us ∧ List.Forall₂ R ys vs := by
  induction xs generalizing zs with
  | nil => exact ⟨[], zs, rfl, .nil, h⟩
  | cons x xs ih =>
    cases h with
    | cons here later =>
      obtain ⟨us, vs, rfl, front, back⟩ := ih later
      exact ⟨_ :: us, vs, rfl, .cons here front, back⟩

/-- Rounded pieces build the same tree. -/
theorem Builds.exists_rounded {ps ps' : List Piece} {c : Content} (builds : Builds ps c)
    (h : List.Forall₂ (Piece.RoundsTo places) ps ps') {n : Nat}
    (names : ∀ entry ∈ c.elementsFrom n, entry.2.tag.UndelimitedNames) :
    ∃ c', Builds ps' c' ∧ c.RoundsTo places c' := by
  induction builds generalizing ps' n with
  | nil =>
    cases h
    exact ⟨.nil, .nil, .nil⟩
  | raw other _ ih =>
    cases h with
    | cons here later =>
      obtain ⟨c', builds', alike⟩ := ih later names (n := n + 1)
      cases here with
      | other _ other' _ kept => exact ⟨_, .raw other' builds', .raw kept alike⟩
      | startTag | emptyTag | endTag => cases other
  | empty tag _ ih =>
    obtain ⟨here, -, after⟩ := Content.forall_elementsFrom_element.mp names
    cases h with
    | cons alike later =>
      obtain ⟨c', builds', alikes⟩ := ih later after
      cases alike with
      | other other => cases other
      | emptyTag rounds =>
        obtain ⟨tag', read, alike⟩ := rounds.exists_tagElement (Rounds.not_delimits (by decide)) tag here
        exact ⟨_, .empty read builds', .element alike .nil alikes⟩
  | @element inside close e ps qs inner next tag closes _ _ within later =>
    obtain ⟨here, below, after⟩ := Content.forall_elementsFrom_element.mp names
    cases h with
    | cons alike others =>
      obtain ⟨ps', rest, rfl, front, back⟩ := exists_append_of_forall₂ others
      cases back with
      | cons ending back =>
        obtain ⟨inner', builds, within⟩ := within front below
        obtain ⟨next', builds', later⟩ := later back after
        cases alike with
        | other other => cases other
        | startTag rounds =>
          cases ending with
          | other other => cases other
          | endTag rounds' =>
            obtain ⟨tag', read, alike⟩ := rounds.exists_tagElement (Rounds.not_delimits (by decide)) tag here
            obtain rfl := rounds'.endTag (Rounds.not_delimits (by decide)) (closes ▸ here.name)
            refine ⟨_, .element read ?_ builds builds', .element alike within later⟩
            exact closes.trans alike.name.symm

/-! ## Documents -/

/-- What stands outside of the root still does. -/
theorem forall₂_roundsRaw {ps ps' : List Piece} (h : List.Forall₂ (Piece.RoundsTo places) ps ps')
    (outside : ∀ p ∈ ps, p.isOutside = true) :
    (∀ p ∈ ps', p.isOutside = true) ∧ List.Forall₂ (RoundsRaw places) (ps.map Piece.kept) (ps'.map Piece.kept) := by
  induction h with
  | nil => exact ⟨fun _ member => absurd member List.not_mem_nil, .nil⟩
  | cons alike _ ih =>
    obtain ⟨here, outside⟩ := List.forall_mem_cons.mp outside
    obtain ⟨outside', alikes⟩ := ih outside
    cases alike with
    | other _ _ keeps kept => exact ⟨List.forall_mem_cons.mpr ⟨keeps here, outside'⟩, .cons kept alikes⟩
    | startTag | emptyTag | endTag => cases here

theorem BuildsDocument.exists_rounded {mark : Text} {ps ps' : List Piece} {d : Document} (builds : BuildsDocument mark ps d)
    (h : List.Forall₂ (Piece.RoundsTo places) ps ps') (names : ∀ entry ∈ d.elements, entry.2.tag.UndelimitedNames) :
    ∃ d', BuildsDocument mark ps' d' ∧ d.RoundsTo places d' := by
  obtain ⟨front, middle, back, rfl, outside, outside', builds, prolog, epilog⟩ := builds
  obtain ⟨front', rest, rfl, alike, others⟩ := exists_append_of_forall₂ h
  obtain ⟨middle', back', rfl, alike', alike''⟩ := exists_append_of_forall₂ others
  obtain ⟨before, rounds⟩ := forall₂_roundsRaw alike outside
  obtain ⟨after, rounds'⟩ := forall₂_roundsRaw alike'' outside'
  obtain ⟨c, builds', root⟩ := builds.exists_rounded (n := 0) alike' fun entry member => by
    obtain ⟨path, listed⟩ := Document.exists_mem_elements member
    exact names (path, entry.2) listed
  cases root with
  | @element _ tag _ content _ _ here within nothing =>
    cases nothing
    refine ⟨⟨(if mark = [] then [] else [mark]) ++ front'.map Piece.kept, ⟨tag, content⟩, back'.map Piece.kept⟩,
      ⟨front', middle', back', rfl, before, after, builds', rfl, rfl⟩, ⟨?_, here, within, ?_⟩⟩
    · rw [prolog]
      exact List.rel_append (List.forall₂_same.mpr fun t _ => .of_rounds none (.refl none t)) rounds
    · rw [epilog]
      exact rounds'

/-- A byte order mark stays where it stands. -/
theorem Rounds.splitMark {before : Option Char} {s t : Text} (h : Rounds places none before s t) (opened : ¬ Delimits before) :
    (SvgEdit.splitMark t).1 = (SvgEdit.splitMark s).1 ∧
      ∃ last, ¬ Delimits last ∧ Rounds places none last (SvgEdit.splitMark s).2 (SvgEdit.splitMark t).2 := by
  cases s with
  | nil =>
    obtain rfl := h.eq_nil_iff.mpr rfl
    exact ⟨rfl, none, by simp, .nil⟩
  | cons c s =>
    obtain ⟨t, rfl, later⟩ := h.exists_kept (.inl opened)
    by_cases mark : c = byteOrderMark
    · rw [SvgEdit.splitMark, SvgEdit.splitMark, if_pos mark, if_pos mark]
      exact ⟨rfl, some c, mark ▸ not_delimits (by decide), later⟩
    · rw [SvgEdit.splitMark, SvgEdit.splitMark, if_neg mark, if_neg mark]
      exact ⟨rfl, before, opened, h⟩

/--
Decimals between delimiters and beside other characters, in values, in text and in a comment. Single quotes
are no delimiters, so the declaration holds no decimal between delimiters.
-/
def measured : Text :=
  "<?xml version='1.0'?><!-- 1.50 --><svg a=\"1.500,-2.0004\" b='3.250' c=\"1.25px\"><d:e >&lt;0.0001 m</d:e ></svg>".toList

example : shortenDecimals 2 measured =
    "<?xml version='1.0'?><!-- 1.5 --><svg a=\"1.5,-2\" b='3.250' c=\"1.25px\"><d:e >&lt;0 m</d:e ></svg>".toList := by
  decide +kernel

end SvgEdit
