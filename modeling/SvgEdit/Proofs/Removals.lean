import SvgEdit.Proofs.PieceBodies
import SvgEdit.Proofs.SpelledContent
import SvgEdit.Proofs.Substitution

/-!
# Comments and metadata removed

On tidy markup, what is removed from the text as such is removed from the tree: the comments, and the
metadata elements with all that is inside.
-/
namespace SvgEdit

/-! ## Steps that look for markup -/

/-- Nothing begins but at `<`, where neither a section nor an instruction begins. -/
structure AtMarkup (step : Text.Step) : Prop where
  elsewhere : ∀ c s, c ≠ '<' → step (c :: s) = none
  declaration : ∀ c s, c ≠ '-' → step ('<' :: '!' :: c :: s) = none
  instruction : ∀ s, step ('<' :: '?' :: s) = none

namespace AtMarkup

variable {step : Text.Step}

theorem idle (at_ : AtMarkup step) {u : Text} (noLess : '<' ∉ u) (s : Text) : Text.Idle step u s :=
  Text.idle_of_chars (fun c member t => at_.elsewhere c t fun same => noLess (same ▸ member)) s

theorem idle_markup (at_ : AtMarkup step) {u s : Text} (first : step ('<' :: (u ++ s)) = none) (noLess : '<' ∉ u) :
    Text.Idle step ('<' :: u) s := ⟨first, at_.idle noLess s⟩

/-- Nothing begins in a piece where nothing begins in its body, if it is a section. -/
theorem idle_framed (at_ : AtMarkup step) {p : Piece} (framed : p.Framed) {s : Text}
    (inside : p.isSection = true → Text.Idle step p.body (p.closing ++ s)) : Text.Idle step p.source s := by
  rw [p.source_eq_body, Text.idle_append_iff, Text.idle_append_iff, List.append_assoc]
  have closing : Text.Idle step p.closing s := at_.idle (fun less => absurd (framed.mem_closing _ less) (by decide)) s
  cases p with
  | text run => exact ⟨trivial, at_.idle (framed.not_mem (by decide)) _, closing⟩
  | reference body => exact ⟨at_.idle (u := ['&']) (by decide) _, at_.idle (framed.not_mem (by decide)) _, closing⟩
  | characterData body =>
    exact ⟨⟨at_.declaration _ _ (by decide), at_.idle (u := "![CDATA[".toList) (by decide) _⟩, inside rfl, closing⟩
  | doctype keyword content =>
    obtain ⟨doctype, first, -⟩ := framed
    refine ⟨?_, inside rfl, closing⟩
    cases keyword with
    | nil => cases doctype
    | cons c keyword =>
      have other : c ≠ '-' := by
        rintro rfl
        rcases first '-' rfl with same | same <;> cases same
      have noLess : '<' ∉ '!' :: c :: keyword := by
        have flat := flat_of_isDoctypeKeyword doctype
        refine fun member => (List.mem_cons.mp member).elim (by decide) fun member => (flat _ member).1 rfl
      exact ⟨at_.declaration _ _ other, at_.idle noLess _⟩
  | instruction body => exact ⟨⟨at_.instruction _, at_.idle (u := ['?']) (by decide) _⟩, inside rfl, closing⟩
  | _ => exact framed.elim

/-- Nothing begins in a clean piece that begins like a comment or like metadata. -/
theorem idle_clean (at_ : AtMarkup step) {start : Text} (listed : start ∈ removedStarts)
    (begins : ∀ v, step v ≠ none → start <+: v) {level : Shrink.Level} {p : Piece} (clean : p.Clean level) (s : Text) :
    Text.Idle step p.source s := by
  have stops : ∀ start ∈ removedStarts, ∀ c ∈ sectionStops, c ∉ start := by decide
  refine at_.idle_framed clean.framed fun isSection => Text.idle_of_suffixes fun w ends _ => ?_
  by_contra found
  have starts := Piece.prefix_of_isSection isSection (stops start listed) (begins _ found)
  exact clean.unmarked isSection start listed (starts.isInfix.trans ends.isInfix)

end AtMarkup

namespace SpelledTag.Tidy

variable {t : SpelledTag}

theorem noLess_inside (h : t.Tidy) : '<' ∉ t.inside := by
  have space {u : Text} (blank : Spaces u) : '<' ∉ u := fun member => absurd (blank _ member) (by decide)
  have plain {u : Text} (name : Plain u) : '<' ∉ u := fun member => absurd (name.2 _ member) (by decide)
  have middle : '<' ∉ t.middle := by
    intro member
    obtain ⟨a, listed, member⟩ := List.mem_flatMap.mp member
    have proper := h.proper.attributes a listed
    have noLess := (h.attributes a listed).noLess
    have quote : '<' ≠ a.quote.char := by cases a.quote <;> decide
    revert member
    simp [SpelledAttribute.source, space proper.before, plain proper.key, space proper.between, space proper.after,
      noLess, quote]
  simp [inside, plain h.proper.name, middle, space h.proper.blanks]

/-- What follows the name in a tag. -/
theorem head?_rest (h : t.Tidy) (s : Text) {close : Char} : ∀ c ∈ (t.middle ++ t.blanks ++ close :: s).head?,
    isSpace c = true ∨ c = close := by
  intro c head
  cases rest : t.middle ++ t.blanks with
  | nil =>
    rw [rest] at head
    exact .inr (Option.some.inj head).symm
  | cons d u =>
    rw [rest] at head
    exact .inl (h.proper.head?_rest c (by rw [rest]; exact head))

end SpelledTag.Tidy

theorem SpelledTag.Proper.exists_inside {t : SpelledTag} (h : t.Proper) :
    ∃ c u, t.inside = c :: u ∧ c ≠ '/' ∧ c ≠ '!' ∧ c ≠ '?' := by
  obtain ⟨c, name, same⟩ := List.exists_cons_of_ne_nil h.name.1
  exact ⟨c, name ++ (t.middle ++ t.blanks), by rw [inside, same]; rfl, h.begins c (by rw [same]; rfl)⟩

theorem noLess_close {name blanks : Text} (plain : Plain name) (blank : Spaces blanks) : '<' ∉ name ++ blanks := by
  intro member
  rcases List.mem_append.mp member with member | member
  · exact absurd (plain.2 _ member) (by decide)
  · exact absurd (blank _ member) (by decide)

namespace AtMarkup

variable {step : Text.Step}

/-- A tag at whose beginning nothing is recognised stays. -/
theorem idle_tag (at_ : AtMarkup step) {t : SpelledTag} (tidy : t.Tidy) {u s : Text} (flat : '<' ∉ u)
    (first : step ('<' :: (t.inside ++ u ++ s)) = none) : Text.Idle step ('<' :: (t.inside ++ u)) s :=
  at_.idle_markup first fun member => (List.mem_append.mp member).elim tidy.noLess_inside flat

theorem idle_endTag (at_ : AtMarkup step) {name blanks s : Text} (plain : Plain name) (blank : Spaces blanks)
    (first : step ('<' :: '/' :: (name ++ blanks ++ '>' :: s)) = none) :
    Text.Idle step (Piece.endTag (name ++ blanks)).source s := by
  have noLess := noLess_close plain blank
  exact at_.idle_markup (by simpa using first) (by simpa using noLess)

end AtMarkup

theorem Text.idle_flatMap {step : Text.Step} {ps : List Piece} (idle : ∀ p ∈ ps, ∀ s, Idle step p.source s) (s : Text) :
    Idle step (ps.flatMap Piece.source) s := by
  induction ps with
  | nil => trivial
  | cons p ps ih =>
    rw [List.flatMap_cons, idle_append_iff]
    exact ⟨idle p List.mem_cons_self _, ih fun q member => idle q (List.mem_cons_of_mem p member)⟩

namespace Shrink

/-- Removing as a step. -/
def removal (after? : Text → Option Text) : Text.Step := fun s => (after? s).map ([], ·)

theorem remove_append_of_idle {after? : Text → Option Text} {u s : Text} (idle : Text.Idle (removal after?) u s) :
    remove after? (u ++ s) = u ++ remove after? s := idle.substitute

end Shrink

/-! ## Comments -/

/-- A comment that is read, or a clean piece. -/
def Piece.Commented (level : Shrink.Level) (p : Piece) : Prop := (∃ body, p = .comment body ∧ p.ReadsBack) ∨ p.Clean level

theorem Piece.isTag_of_commented {level : Shrink.Level} {p : Piece} (h : p.Commented level) : p.isTag = false := by
  rcases h with ⟨body, rfl, -⟩ | clean
  · rfl
  · exact isTag_of_framed clean.framed

theorem afterComment?_atMarkup : AtMarkup (Shrink.removal Shrink.afterComment?) where
  elsewhere c s other := by simp [Shrink.removal, Shrink.afterComment?, Text.dropPrefix?, other]
  declaration c s other := by simp [Shrink.removal, Shrink.afterComment?, Text.dropPrefix?, other]
  instruction s := by simp [Shrink.removal, Shrink.afterComment?, Text.dropPrefix?]

theorem afterComment?_begins (v : Text) (found : Shrink.removal Shrink.afterComment? v ≠ none) : "<!--".toList <+: v := by
  obtain ⟨⟨new, rest⟩, found⟩ := Option.ne_none_iff_exists'.mp found
  obtain ⟨rest', found, -⟩ := Option.map_eq_some_iff.mp found
  obtain ⟨body, starts, -⟩ := Option.bind_eq_some_iff.mp found
  exact ⟨body, (Text.dropPrefix?_eq_some_iff.mp starts).symm⟩

theorem afterComment?_comment {body : Text} (back : (Piece.comment body).ReadsBack) (s : Text) :
    Shrink.afterComment? ((Piece.comment body).source ++ s) = some s := by
  obtain ⟨c, tail, source, read⟩ := back
  obtain ⟨rfl, rfl⟩ := List.cons.inj source
  have read := read s fun run => nomatch run
  change readDeclaration ('-' :: '-' :: (body ++ ['-', '-', '>'] ++ s)) = _ at read
  rcases readDeclaration_eq_ok_iff.mp read with ⟨body', t, same, whole, cut⟩ | ⟨_, _, other, -⟩ | ⟨_, _, other, -⟩
  · obtain rfl := Piece.comment.inj same
    obtain rfl := (List.cons.inj (List.cons.inj whole).2).2
    simp only [Piece.source, List.cons_append, Shrink.afterComment?, Text.dropPrefix?, if_true, Option.bind_some,
      Shrink.afterFirst?, cut, Option.map_some]
  · cases other
  · cases other

/-- Where no piece but a comment holds the beginning of one, the comments are what is removed. -/
theorem removeComments_pieces {ps : List Piece} (back : ∀ p ∈ ps, p.isComment = true → p.ReadsBack)
    (idle : ∀ p later, p :: later <:+ ps → p.isComment = false →
      Text.Idle (Shrink.removal Shrink.afterComment?) p.source (later.flatMap Piece.source)) :
    Shrink.removeComments (ps.flatMap Piece.source) = (ps.filter fun p => !p.isComment).flatMap Piece.source := by
  induction ps with
  | nil => exact Shrink.remove_nil
  | cons p ps ih =>
    have later := ih (fun q member => back q (List.mem_cons_of_mem p member))
      (fun q later ends => idle q later (ends.trans (List.suffix_cons p ps)))
    rw [List.flatMap_cons]
    cases comment : p.isComment with
    | true =>
      cases p with
      | comment body =>
        have found := afterComment?_comment (back _ List.mem_cons_self rfl) (ps.flatMap Piece.source)
        rw [List.filter_cons_of_neg (by simp [comment]), ← later]
        exact Shrink.remove_cons_of_some found (by simp; omega)
      | _ => cases comment
    | false =>
      rw [List.filter_cons_of_pos (by simp [comment]), List.flatMap_cons, ← later]
      exact Shrink.remove_append_of_idle (idle p ps (List.suffix_refl _) comment)

namespace SpelledContent

def withoutComments : SpelledContent → SpelledContent
  | nil => nil
  | other p next => if p.isComment then next.withoutComments else other p next.withoutComments
  | empty t next => empty t next.withoutComments
  | element t blanks inside next => element t blanks inside.withoutComments next.withoutComments

theorem pieces_withoutComments (c : SpelledContent) :
    c.withoutComments.pieces = c.pieces.filter fun p => !p.isComment := by
  induction c with
  | nil => rfl
  | other p next ih =>
    rw [withoutComments, pieces]
    cases comment : p.isComment with
    | true => rw [if_pos rfl, ih, List.filter_cons_of_neg (by simp [comment])]
    | false =>
      rw [if_neg (by decide), List.filter_cons_of_pos (by simp [comment]), pieces, ih]
  | empty t next ih => rw [withoutComments, pieces, pieces, ih, List.filter_cons_of_pos rfl]
  | element t blanks inside next ihInside ihNext =>
    rw [withoutComments, pieces, pieces, ihInside, ihNext, List.filter_cons_of_pos rfl, List.filter_append,
      List.filter_cons_of_pos rfl]

end SpelledContent

/-! ## Metadata -/

def metadataName : Text := ['m', 'e', 't', 'a', 'd', 'a', 't', 'a']

theorem metadataStart_eq : Shrink.metadataStart = '<' :: metadataName := by decide

theorem metadataEnd_eq : Shrink.metadataEnd = '<' :: '/' :: (metadataName ++ ['>']) := by decide

theorem append_cons_inj {u v r r' : Text} {c : Char} (same : u ++ c :: r = v ++ c :: r') (left : c ∉ u)
    (right : c ∉ v) : u = v ∧ r = r' := by
  have long := length_le_of_not_mem same left
  have long' := length_le_of_not_mem same.symm right
  obtain ⟨rfl, back⟩ := List.append_inj same (Nat.le_antisymm long long')
  exact ⟨rfl, (List.cons.inj back).2⟩

theorem Text.cut?_append_of_idle {mark u s : Text} (idle : Idle (Shrink.removal (dropPrefix? mark)) u s) :
    cut? mark (u ++ s) = (cut? mark s).map fun (before, rest) => (u ++ before, rest) := by
  induction u with
  | nil =>
    rw [List.nil_append]
    cases cut? mark s <;> rfl
  | cons c u ih =>
    obtain ⟨missing, later⟩ := idle
    have missing : dropPrefix? mark (c :: (u ++ s)) = none := by simpa [Shrink.removal] using missing
    rw [List.cons_append, cut?, missing, ih later]
    cases cut? mark s <;> rfl

/-- The first place of a character that stands in the text. -/
theorem Text.exists_cut?_singleton (c : Char) (u s : Text) :
    ∃ before front, cut? [c] (u ++ c :: s) = some (before, front ++ s) ∧ ∀ d ∈ front, d ∈ u ∨ d = c := by
  induction u with
  | nil => exact ⟨[], [], by simp [cut?, dropPrefix?], fun _ member => absurd member List.not_mem_nil⟩
  | cons d u ih =>
    by_cases same : d = c
    · refine ⟨[], u ++ [c], by simp [cut?, dropPrefix?, same], fun e member => ?_⟩
      rcases List.mem_append.mp member with member | member
      · exact .inl (List.mem_cons_of_mem d member)
      · exact .inr (List.mem_singleton.mp member)
    · obtain ⟨before, front, cut, part⟩ := ih
      refine ⟨d :: before, front, by simp [cut?, dropPrefix?, same, cut], fun e member => ?_⟩
      exact (part e member).imp_left (List.mem_cons_of_mem d)

theorem afterMetadata?_eq_none {s : Text} (other : Text.dropPrefix? ('<' :: metadataName) s = none) :
    Shrink.removal Shrink.afterMetadata? s = none := by
  rw [Shrink.removal, Shrink.afterMetadata?, metadataStart_eq, other]
  rfl

theorem afterMetadata?_atMarkup : AtMarkup (Shrink.removal Shrink.afterMetadata?) where
  elsewhere c s other := afterMetadata?_eq_none (by simp [Text.dropPrefix?, other])
  declaration c s _ := afterMetadata?_eq_none (by simp [Text.dropPrefix?, metadataName])
  instruction s := afterMetadata?_eq_none (by simp [Text.dropPrefix?, metadataName])

theorem afterMetadata?_begins (v : Text) (found : Shrink.removal Shrink.afterMetadata? v ≠ none) :
    "<metadata".toList <+: v := by
  by_contra other
  refine found (afterMetadata?_eq_none ?_)
  by_contra starts
  obtain ⟨rest, starts⟩ := Option.ne_none_iff_exists'.mp starts
  exact other ⟨rest, (Text.dropPrefix?_eq_some_iff.mp starts).symm⟩

theorem metadataEnd_atMarkup : AtMarkup (Shrink.removal (Text.dropPrefix? Shrink.metadataEnd)) where
  elsewhere c s other := by simp [Shrink.removal, metadataEnd_eq, Text.dropPrefix?, other]
  declaration c s _ := by simp [Shrink.removal, metadataEnd_eq, Text.dropPrefix?]
  instruction s := by simp [Shrink.removal, metadataEnd_eq, Text.dropPrefix?]

theorem metadataEnd_begins (v : Text) (found : Shrink.removal (Text.dropPrefix? Shrink.metadataEnd) v ≠ none) :
    "</metadata".toList <+: v := by
  obtain ⟨⟨new, rest⟩, found⟩ := Option.ne_none_iff_exists'.mp found
  obtain ⟨rest', starts, -⟩ := Option.map_eq_some_iff.mp found
  exact ⟨'>' :: rest', (Text.dropPrefix?_eq_some_iff.mp starts).symm⟩

/-- A tag of another name is no metadata. -/
theorem afterMetadata?_of_ne {name u : Text} (plain : Plain name) (steady : Steady name) (other : name ≠ metadataName)
    (ends : ∀ c ∈ u.head?, isSpace c = true ∨ c = '>' ∨ c = '/') : Shrink.afterMetadata? ('<' :: (name ++ u)) = none := by
  unfold Shrink.afterMetadata?
  cases starts : Text.dropPrefix? Shrink.metadataStart ('<' :: (name ++ u)) with
  | none => rfl
  | some s =>
    have same : name ++ u = metadataName ++ s :=
      (List.cons.inj (Text.dropPrefix?_eq_some_iff.mp (metadataStart_eq ▸ starts))).2
    rcases List.append_eq_append_iff.mp same with ⟨more, longer, rfl⟩ | ⟨more, rfl, rfl⟩
    · cases more with
      | nil => exact absurd (by simpa using longer.symm) other
      | cons c more =>
        have letter : ∀ c ∈ metadataName, ¬ (isSpace c = true ∨ c = '>' ∨ c = '/') := by decide
        exact absurd (ends c rfl) (letter c (by rw [longer]; simp))
    · cases more with
      | nil => exact absurd (List.append_nil _) other
      | cons c more =>
        have member : c ∈ metadataName ++ c :: more := by simp
        have noBlank := steady.noBlank c member
        obtain ⟨-, noSlash, -, -, noGreater, -⟩ := isPlainChar_iff.mp (plain.2 c member)
        simp [noBlank, noSlash, noGreater]

namespace SpelledContent

def withoutMetadata : SpelledContent → SpelledContent
  | nil => nil
  | other p next => other p next.withoutMetadata
  | empty t next => if t.name = metadataName then next.withoutMetadata else empty t next.withoutMetadata
  | element t blanks inside next =>
    if t.name = metadataName then next.withoutMetadata
    else element t blanks inside.withoutMetadata next.withoutMetadata

/-- Metadata elements are empty tags without attributes, or end at the first end tag of metadata. -/
def MetadataApart : SpelledContent → Prop
  | nil => True
  | other _ next => next.MetadataApart
  | empty t next => (t.name = metadataName → t.inside = metadataName) ∧ next.MetadataApart
  | element t blanks inside next =>
    (t.name = metadataName → blanks = [] ∧ .endTag metadataName ∉ inside.pieces) ∧
      inside.MetadataApart ∧ next.MetadataApart

variable {level : Shrink.Level} {styled : Prop}

/-- The first end tag of metadata after content without one. -/
theorem cut?_metadataEnd {c : SpelledContent} (meets : c.Meets ⟨Piece.Clean level, SpelledTag.Ready styled⟩)
    (apart : .endTag metadataName ∉ c.pieces) {front : Text} (noLess : '<' ∉ front) (rest : Text) :
    Text.cut? Shrink.metadataEnd (front ++ (c.source ++ (Shrink.metadataEnd ++ rest))) =
      some (front ++ c.source, rest) := by
  have idle : ∀ p ∈ c.pieces, p ≠ .endTag metadataName →
      ∀ s, Text.Idle (Shrink.removal (Text.dropPrefix? Shrink.metadataEnd)) p.source s := by
    refine forall_pieces (fun p clean _ s => metadataEnd_atMarkup.idle_clean (by decide) metadataEnd_begins clean s) (fun t ready _ s => ?_)
      (fun t ready _ s => ?_) (fun t blanks ready blank other s => ?_) meets
    · obtain ⟨c, u, same, noSlash, -⟩ := ready.tidy.proper.exists_inside
      refine metadataEnd_atMarkup.idle_tag ready.tidy (by decide) ?_
      simp [Shrink.removal, metadataEnd_eq, Text.dropPrefix?, same, noSlash]
    · obtain ⟨c, u, same, noSlash, -⟩ := ready.tidy.proper.exists_inside
      refine metadataEnd_atMarkup.idle_tag ready.tidy (by decide) ?_
      simp [Shrink.removal, metadataEnd_eq, Text.dropPrefix?, same, noSlash]
    · refine metadataEnd_atMarkup.idle_endTag ready.tidy.proper.name blank ?_
      rw [Shrink.removal, Option.map_eq_none_iff]
      by_contra found
      obtain ⟨r, starts⟩ := Option.ne_none_iff_exists'.mp found
      have whole := Text.dropPrefix?_eq_some_iff.mp starts
      rw [metadataEnd_eq] at whole
      have whole : (t.name ++ blanks) ++ '>' :: s = metadataName ++ '>' :: r := by simpa using whole
      refine other (congrArg _ (append_cons_inj whole ?_ (by decide)).1)
      intro member
      rcases List.mem_append.mp member with member | member
      · exact absurd (ready.tidy.proper.name.2 _ member) (by decide)
      · exact absurd (blank _ member) (by decide)
  have front' := metadataEnd_atMarkup.idle noLess (c.source ++ (Shrink.metadataEnd ++ rest))
  have inner : Text.Idle (Shrink.removal (Text.dropPrefix? Shrink.metadataEnd)) c.source (Shrink.metadataEnd ++ rest) :=
    Text.idle_flatMap (fun p member => idle p member fun same => apart (same ▸ member)) _
  have here : Text.cut? Shrink.metadataEnd (Shrink.metadataEnd ++ rest) = some ([], rest) := by
    have starts := Text.dropPrefix?_eq_some_iff.mpr (rfl : Shrink.metadataEnd ++ rest = _)
    rw [metadataEnd_eq] at starts ⊢
    rw [List.cons_append] at starts ⊢
    rw [Text.cut?, starts]
  rw [Text.cut?_append_of_idle front', Text.cut?_append_of_idle inner, here]
  simp

/-- A metadata element is recognised as a whole. -/
theorem afterMetadata?_element {t : SpelledTag} (ready : t.Ready styled) (named : t.name = metadataName)
    {c : SpelledContent} (meets : c.Meets ⟨Piece.Clean level, SpelledTag.Ready styled⟩)
    (apart : .endTag metadataName ∉ c.pieces) (rest : Text) :
    Shrink.afterMetadata? ('<' :: (t.inside ++ '>' :: (c.source ++ (Shrink.metadataEnd ++ rest)))) = some rest := by
  have starts {u : Text} : Text.dropPrefix? Shrink.metadataStart ('<' :: (metadataName ++ u)) = some u := by
    rw [metadataStart_eq]
    exact Text.dropPrefix?_eq_some_iff.mpr rfl
  have noLess := ready.tidy.noLess_inside
  have found {front : Text} (noLess : '<' ∉ front) :
      Shrink.afterFirst? Shrink.metadataEnd (front ++ (c.source ++ (Shrink.metadataEnd ++ rest))) = some rest := by
    rw [Shrink.afterFirst?, cut?_metadataEnd meets apart noLess]
    rfl
  rw [SpelledTag.inside, named] at noLess ⊢
  have noLess : '<' ∉ t.middle ++ t.blanks := fun member => noLess (List.mem_append_right _ member)
  have first := ready.tidy.proper.head?_rest
  rw [Shrink.afterMetadata?, List.append_assoc, starts]
  cases middle : t.middle ++ t.blanks with
  | nil => exact found List.not_mem_nil
  | cons d u =>
    rw [middle] at noLess first
    have space := first d rfl
    have noGreater : d ≠ '>' := by
      rintro rfl
      cases space
    have noSlash : d ≠ '/' := by
      rintro rfl
      cases space
    obtain ⟨before, front, cut, part⟩ := Text.exists_cut?_singleton '>' u (c.source ++ (Shrink.metadataEnd ++ rest))
    have noLess' : '<' ∉ front := by
      intro member
      rcases part _ member with member | same
      · exact noLess (List.mem_cons_of_mem d member)
      · cases same
    simp only [List.cons_append, if_neg noGreater, if_neg noSlash, if_pos (Text.isBlank_of_isSpace space), cut,
      found noLess']

/-- A tag of another name stays. -/
theorem idle_otherTag {t : SpelledTag} (ready : t.Ready styled) (other : t.name ≠ metadataName) {close : Char} {more : Text}
    (ends : close = '>' ∨ close = '/') (flat : '<' ∉ close :: more) (s : Text) :
    Text.Idle (Shrink.removal Shrink.afterMetadata?) ('<' :: (t.inside ++ close :: more)) s := by
  refine afterMetadata?_atMarkup.idle_tag ready.tidy flat ?_
  have none := afterMetadata?_of_ne (u := t.middle ++ t.blanks ++ close :: (more ++ s)) ready.tidy.proper.name
    ready.tidy.name other fun c head => by
      rcases ready.tidy.head?_rest _ c head with space | rfl
      · exact .inl space
      · exact .inr ends
  rw [Shrink.removal, Option.map_eq_none_iff]
  simpa [SpelledTag.inside] using none

/-- Metadata is removed from the text exactly if it is removed from the tree. -/
theorem removeMetadata_source {c : SpelledContent} (meets : c.Meets ⟨Piece.Clean level, SpelledTag.Ready styled⟩)
    (apart : c.MetadataApart) (s : Text) :
    Shrink.removeMetadata (c.source ++ s) = c.withoutMetadata.source ++ Shrink.removeMetadata s := by
  have kept {u v : Text} (idle : Text.Idle (Shrink.removal Shrink.afterMetadata?) u v) :
      Shrink.removeMetadata (u ++ v) = u ++ Shrink.removeMetadata v := Shrink.remove_append_of_idle idle
  induction c generalizing s with
  | nil => rfl
  | other p next ih =>
    rw [withoutMetadata, source_other, source_other, List.append_assoc, List.append_assoc, ← ih meets.2 apart]
    exact kept (afterMetadata?_atMarkup.idle_clean (by decide) afterMetadata?_begins meets.1 _)
  | empty t next ih =>
    rw [withoutMetadata, source_empty, List.append_assoc]
    split
    · next named =>
      rw [← ih meets.2 apart.2, apart.1 named]
      have found : Shrink.afterMetadata? ('<' :: (metadataName ++ ['/', '>'] ++ (next.source ++ s))) =
          some (next.source ++ s) := by
        simp [Shrink.afterMetadata?, metadataStart_eq, metadataName, Text.dropPrefix?, Shrink.afterChar?]
      exact Shrink.remove_cons_of_some found (by simp; omega)
    · next other =>
      rw [source_empty, List.append_assoc, ← ih meets.2 apart.2]
      exact kept (idle_otherTag meets.1 other (.inr rfl) (by decide) _)
  | element t blanks inside next ihInside ihNext =>
    obtain ⟨⟨ready, blank⟩, within, later⟩ := meets
    rw [withoutMetadata, source_element]
    split
    · next named =>
      obtain ⟨rfl, noEnd⟩ := apart.1 named
      rw [← ihNext later apart.2.2]
      have found := afterMetadata?_element ready named within noEnd (next.source ++ s)
      rw [metadataEnd_eq] at found
      have removed := Shrink.remove_cons_of_some found (by simp; omega)
      rw [named]
      simpa [Piece.source, Shrink.removeMetadata] using removed
    · next other =>
      have close : Text.Idle (Shrink.removal Shrink.afterMetadata?) (Piece.endTag (t.name ++ blanks)).source
          (next.source ++ s) :=
        afterMetadata?_atMarkup.idle_endTag ready.tidy.proper.name blank
          (afterMetadata?_eq_none (by simp [Text.dropPrefix?, metadataName]))
      have start (v : Text) : Text.Idle (Shrink.removal Shrink.afterMetadata?) (Piece.startTag t.inside).source v :=
        idle_otherTag ready other (.inl rfl) (by decide) v
      simp only [source_element, List.append_assoc]
      rw [kept (start _), ihInside within apart.2.1, kept close, ihNext later apart.2.2]

/-! ## What is left -/

theorem meets_withoutComments {tag : SpelledTag → Prop} {c : SpelledContent}
    (meets : c.Meets ⟨Piece.Commented level, tag⟩) : c.withoutComments.Meets ⟨Piece.Clean level, tag⟩ := by
  induction c with
  | nil => trivial
  | other p next ih =>
    rw [withoutComments]
    split
    · exact ih meets.2
    · next other =>
      refine ⟨?_, ih meets.2⟩
      rcases meets.1 with ⟨body, rfl, -⟩ | clean
      · exact absurd rfl other
      · exact clean
  | empty t next ih => exact ⟨meets.1, ih meets.2⟩
  | element t blanks inside next ihInside ihNext => exact ⟨meets.1, ihInside meets.2.1, ihNext meets.2.2⟩

theorem metadataApart_withoutComments {c : SpelledContent} (apart : c.MetadataApart) :
    c.withoutComments.MetadataApart := by
  induction c with
  | nil => trivial
  | other p next ih =>
    rw [withoutComments]
    split
    · exact ih apart
    · exact ih apart
  | empty t next ih => exact ⟨apart.1, ih apart.2⟩
  | element t blanks inside next ihInside ihNext =>
    refine ⟨fun named => ⟨(apart.1 named).1, fun member => ?_⟩, ihInside apart.2.1, ihNext apart.2.2⟩
    rw [pieces_withoutComments] at member
    exact (apart.1 named).2 (List.mem_filter.mp member).1

theorem reduces_withoutComments {gone : Text → Prop} (c : SpelledContent) :
    c.Reduces (· = ·) gone c.withoutComments := by
  induction c with
  | nil => exact .nil
  | other p next ih =>
    rw [withoutComments]
    split
    · exact .noOther ih
    · exact .other id ih
  | empty t next ih => exact .empty rfl ih
  | element t blanks inside next ihInside ihNext => exact .element rfl ihInside ihNext

theorem meets_withoutMetadata {terms : Terms} {c : SpelledContent} (meets : c.Meets terms) :
    c.withoutMetadata.Meets terms := by
  induction c with
  | nil => trivial
  | other p next ih => exact ⟨meets.1, ih meets.2⟩
  | empty t next ih =>
    rw [withoutMetadata]
    split
    · exact ih meets.2
    · exact ⟨meets.1, ih meets.2⟩
  | element t blanks inside next ihInside ihNext =>
    rw [withoutMetadata]
    split
    · exact ihNext meets.2.2
    · exact ⟨meets.1, ihInside meets.2.1, ihNext meets.2.2⟩

theorem reduces_withoutMetadata (c : SpelledContent) :
    c.Reduces (· = ·) (· = metadataName) c.withoutMetadata := by
  induction c with
  | nil => exact .nil
  | other p next ih => exact .other id ih
  | empty t next ih =>
    rw [withoutMetadata]
    split
    · next named => exact .noEmpty named ih
    · exact .empty rfl ih
  | element t blanks inside next ihInside ihNext =>
    rw [withoutMetadata]
    split
    · next named => exact .noElement named ihNext
    · exact .element rfl ihInside ihNext

/-- Comments are removed from the text exactly as from the tree. -/
theorem removeComments_source {c : SpelledContent} (meets : c.Meets ⟨Piece.Commented level, SpelledTag.Ready styled⟩) :
    Shrink.removeComments c.source = c.withoutComments.source := by
  have tag {t : SpelledTag} (ready : t.Ready styled) {u : Text} (flat : '<' ∉ u) (s : Text) :
      Text.Idle (Shrink.removal Shrink.afterComment?) ('<' :: (t.inside ++ u)) s := by
    obtain ⟨c, v, same, -, noDeclaration, -⟩ := ready.tidy.proper.exists_inside
    refine afterComment?_atMarkup.idle_tag ready.tidy flat ?_
    simp [Shrink.removal, Shrink.afterComment?, Text.dropPrefix?, same, noDeclaration]
  have both : ∀ p ∈ c.pieces, (p.isComment = true → p.ReadsBack) ∧
      (p.isComment = false → ∀ s, Text.Idle (Shrink.removal Shrink.afterComment?) p.source s) := by
    refine forall_pieces (fun p commented => ?_) (fun t ready => ⟨fun comment => (by cases comment), fun _ s => ?_⟩)
      (fun t ready => ⟨fun comment => (by cases comment), fun _ s => ?_⟩)
      (fun t blanks ready blank => ⟨fun comment => (by cases comment), fun _ s => ?_⟩) meets
    · rcases commented with ⟨body, rfl, back⟩ | clean
      · exact ⟨fun _ => back, fun other => by cases other⟩
      · refine ⟨fun comment => ?_, fun _ s => afterComment?_atMarkup.idle_clean (by decide) afterComment?_begins clean s⟩
        cases p <;> first | exact clean.framed.elim | cases comment
    · exact tag ready (by decide) s
    · exact tag ready (by decide) s
    · refine afterComment?_atMarkup.idle_endTag ready.tidy.proper.name blank ?_
      simp [Shrink.removal, Shrink.afterComment?, Text.dropPrefix?]
  rw [source, source, pieces_withoutComments]
  refine removeComments_pieces (fun p member => (both p member).1) fun p later ends other => ?_
  exact (both p (ends.subset List.mem_cons_self)).2 other _

/-- Clean content is left once comments and metadata are removed. -/
theorem holds_withoutMetadata {c : SpelledContent} (meets : c.Meets ⟨Piece.Commented level, SpelledTag.Ready styled⟩)
    (apart : c.MetadataApart) {fact : SpelledContent → Prop}
    (lasts : ∀ {c c' : SpelledContent}, c.Reduces (· = ·) (· = metadataName) c' → fact c → fact c')
    (known : fact c) {k : Nat} (few : k ≤ 2) : Terms.Holds ⟨Piece.Clean level, SpelledTag.Ready styled⟩ fact
      (Shrink.removeMetadata (Shrink.removeComments (List.replicate k byteOrderMark ++ c.source))) := by
  have noLess : '<' ∉ List.replicate k byteOrderMark := fun member => absurd (List.eq_of_mem_replicate member) (by decide)
  have comments : Shrink.removeComments (List.replicate k byteOrderMark ++ c.source) =
      List.replicate k byteOrderMark ++ c.withoutComments.source := by
    rw [← removeComments_source meets]
    exact Shrink.remove_append_of_idle (afterComment?_atMarkup.idle noLess _)
  have metadata : Shrink.removeMetadata (List.replicate k byteOrderMark ++ c.withoutComments.source) =
      List.replicate k byteOrderMark ++ c.withoutComments.withoutMetadata.source := by
    have removed := removeMetadata_source (meets_withoutComments meets) (metadataApart_withoutComments apart) []
    have nothing : Shrink.removeMetadata [] = [] := Shrink.remove_nil
    rw [List.append_nil, nothing, List.append_nil] at removed
    rw [← removed]
    exact Shrink.remove_append_of_idle (afterMetadata?_atMarkup.idle noLess _)
  rw [comments, metadata]
  obtain ⟨c', source, meets', runs, joined⟩ := exists_runsApart (fun _ _ => Piece.clean_join)
    (meets_withoutMetadata (meets_withoutComments meets))
  have known' := lasts joined (lasts (reduces_withoutMetadata _) (lasts (reduces_withoutComments c) known))
  exact ⟨k, few, c', by rw [source], meets', runs, known'⟩

end SpelledContent
end SvgEdit
