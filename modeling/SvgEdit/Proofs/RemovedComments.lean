import SvgEdit.Proofs.JoinedRuns
import SvgEdit.Proofs.Removals

/-!
# Documents without comments

Where `<!--` begins nothing but comments, the comments that are removed from the text are those that the
reader takes. What is left is a document again: the same one, its comments taken out.
-/
namespace SvgEdit

/-! ## Comments in a text -/

/-- What a comment begins with. -/
def commentStart : Text := ['<', '!', '-', '-']

/-- Wherever `<!--` stands in the text, a comment begins that the reader takes. -/
def CommentsApart (s : Text) : Prop :=
  ∀ w ∈ s.tails, commentStart <+: w → ∃ ps ∈ (piecesOf s).tails, ps.head?.any Piece.isComment ∧
    w = ps.flatMap Piece.source

theorem starts_of_afterComment? {s rest : Text} (found : Shrink.afterComment? s = some rest) : commentStart <+: s := by
  obtain ⟨s', start, -⟩ := Option.bind_eq_some_iff.mp found
  exact ⟨s', (Text.dropPrefix?_eq_some_iff.mp start).symm⟩

theorem length_source_le {ps qs : List Piece} (ends : ps <:+ qs) :
    (ps.flatMap Piece.source).length ≤ (qs.flatMap Piece.source).length := by
  obtain ⟨front, rfl⟩ := ends
  rw [List.flatMap_append, List.length_append]
  exact Nat.le_add_left _ _

/-- No comment begins within a piece that is none. -/
theorem CommentsApart.idle {s : Text} (apart : CommentsApart s)
    (whole : marksOf s ++ (piecesOf s).flatMap Piece.source = s) {p : Piece} {later : List Piece}
    (ends : p :: later <:+ piecesOf s) (other : p.isComment = false) :
    Text.Idle (Shrink.removal Shrink.afterComment?) p.source (later.flatMap Piece.source) := by
  refine Text.idle_of_suffixes fun w within nonempty => ?_
  by_contra found
  obtain ⟨⟨new, rest⟩, found⟩ := Option.ne_none_iff_exists'.mp found
  obtain ⟨rest', found, -⟩ := Option.map_eq_some_iff.mp found
  have tail : w ++ later.flatMap Piece.source <:+ s := by
    obtain ⟨front, parts⟩ := ends
    obtain ⟨u, source⟩ := within
    refine ⟨marksOf s ++ (front.flatMap Piece.source ++ u), ?_⟩
    conv_rhs => rw [← whole, ← parts, List.flatMap_append, List.flatMap_cons, ← source]
    simp only [List.append_assoc]
  obtain ⟨ps, listed, comment, same⟩ := apart _ ((List.mem_tails _ _).mpr tail) (starts_of_afterComment? found)
  have some := List.length_pos_iff.mpr nonempty
  have long : w.length + (later.flatMap Piece.source).length = (ps.flatMap Piece.source).length := by
    rw [← same, List.length_append]
  cases ps with
  | nil => cases comment
  | cons c ps =>
    have comment : c.isComment = true := comment
    rcases List.suffix_or_suffix_of_suffix ((List.mem_tails _ _).mp listed) ends with shorter | longer
    · rcases List.suffix_cons_iff.mp shorter with same | shorter
      · rw [(List.cons.inj same).1, other] at comment
        cases comment
      · have less := length_source_le shorter
        omega
    · rcases List.suffix_cons_iff.mp longer with same | longer
      · rw [← (List.cons.inj same).1, other] at comment
        cases comment
      · have more := length_source_le longer
        have within := within.length_le
        have first : 0 < c.source.length := by
          cases c with
          | comment body => exact Nat.succ_pos _
          | _ => cases comment
        rw [List.flatMap_cons, List.length_append] at more long
        omega

/-- Exactly the comments are removed from the text. -/
theorem removeComments_eq {s : Text} (apart : CommentsApart s) (cut : Cut (bodyOf s) (piecesOf s)) :
    Shrink.removeComments s =
      marksOf s ++ ((piecesOf s).filter fun p => !p.isComment).flatMap Piece.source := by
  have whole := marksOf_append_bodyOf s
  rw [cut.source] at whole
  have noLess : '<' ∉ marksOf s := fun member => absurd (mem_marksOf member) (by decide)
  rw [← removeComments_pieces (fun p member _ => cut.readsBack p member) fun p later => apart.idle whole]
  conv_lhs => rw [← whole]
  exact Shrink.remove_append_of_idle (afterComment?_atMarkup.idle noLess _)

/-! ## Comments in a document -/

/-- Whether raw source is that of a comment. -/
def isCommentSource (source : Text) : Bool := decide (commentStart <+: source)

def Content.withoutComments : Content → Content
  | nil => nil
  | raw source next => if isCommentSource source then next.withoutComments else raw source next.withoutComments
  | element tag inside next => element tag inside.withoutComments next.withoutComments

/-- The document without its comments, before and after the root too. -/
def Document.withoutComments (d : Document) : Document where
  prolog := d.prolog.filter fun source => !isCommentSource source
  root := ⟨d.root.tag, d.root.content.withoutComments⟩
  epilog := d.epilog.filter fun source => !isCommentSource source

theorem isCommentSource_kept {p : Piece} (back : p.ReadsBack) (other : p.isTag = false) :
    isCommentSource p.kept = p.isComment := by
  cases p with
  | text run =>
    obtain ⟨nonempty, flat⟩ := readsBack_text_iff.mp back
    obtain ⟨c, run, rfl⟩ := List.exists_cons_of_ne_nil nonempty
    have noLess : '<' ≠ c := by
      rintro rfl
      exact absurd (flat '<' List.mem_cons_self) (by decide)
    simp [isCommentSource, commentStart, Piece.kept, Piece.source, Piece.isComment, noLess]
  | startTag | emptyTag | endTag => cases other
  | _ => simp [isCommentSource, commentStart, Piece.kept, Piece.source, Piece.isComment]

theorem Builds.withoutComments {ps : List Piece} {c : Content} (h : Builds ps c) (back : ∀ p ∈ ps, p.ReadsBack) :
    Builds (ps.filter fun p => !p.isComment) c.withoutComments := by
  induction h with
  | nil => exact .nil
  | @raw p ps next other later ih =>
    obtain ⟨here, back⟩ := List.forall_mem_cons.mp back
    have same := isCommentSource_kept here other
    cases comment : p.isComment with
    | true =>
      rw [Content.withoutComments, if_pos (same.trans comment), List.filter_cons_of_neg (by simp [comment])]
      exact ih back
    | false =>
      rw [Content.withoutComments, if_neg (by simp [same, comment]), List.filter_cons_of_pos (by simp [comment])]
      exact .raw other (ih back)
  | empty tag _ ih => exact .empty tag (ih (List.forall_mem_cons.mp back).2)
  | element tag closes _ _ within later =>
    obtain ⟨inner, back⟩ := List.forall_mem_append.mp (List.forall_mem_cons.mp back).2
    rw [List.filter_cons_of_pos rfl, List.filter_append, List.filter_cons_of_pos rfl]
    exact .element tag closes (within inner) (later (List.forall_mem_cons.mp back).2)

theorem kept_withoutComments {ps : List Piece} (outside : ∀ p ∈ ps, p.isOutside = true) (back : ∀ p ∈ ps, p.ReadsBack) :
    (ps.filter fun p => !p.isComment).map Piece.kept =
      (ps.map Piece.kept).filter fun source => !isCommentSource source := by
  rw [List.filter_map]
  refine congrArg _ (List.filter_congr fun p member => ?_)
  rw [Function.comp_apply, isCommentSource_kept (back p member) (Piece.isTag_of_isOutside (outside p member))]

theorem BuildsDocument.withoutComments {mark : Text} (marked : mark = [] ∨ mark = [byteOrderMark]) {ps : List Piece}
    {d : Document} (h : BuildsDocument mark ps d) (back : ∀ p ∈ ps, p.ReadsBack) :
    BuildsDocument mark (ps.filter fun p => !p.isComment) d.withoutComments := by
  obtain ⟨front, middle, back', rfl, outside, outside', builds, prolog, epilog⟩ := h
  obtain ⟨backFront, rest⟩ := List.forall_mem_append.mp back
  obtain ⟨backMiddle, backBack⟩ := List.forall_mem_append.mp rest
  have part {ps : List Piece} (outside : ∀ p ∈ ps, p.isOutside = true) :
      ∀ p ∈ ps.filter (fun p => !p.isComment), p.isOutside = true :=
    fun p member => outside p (List.mem_filter.mp member).1
  have first : (if mark = [] then [] else [mark]).filter (fun source => !isCommentSource source) =
      if mark = [] then [] else [mark] := by
    rcases marked with rfl | rfl <;> rfl
  refine ⟨_, _, _, by rw [List.filter_append, List.filter_append], part outside, part outside',
    builds.withoutComments backMiddle, ?_, ?_⟩
  · rw [Document.withoutComments, prolog, List.filter_append, first, kept_withoutComments outside backFront]
  · rw [Document.withoutComments, epilog, kept_withoutComments outside' backBack]

/--
A document in whose text `<!--` begins nothing but comments is a document again once comments are removed,
and its source is that of the first one with exactly its comments taken out.
-/
theorem parse_removeComments {s : Text} {d : Document} (parsed : Document.parse s = .ok d) (apart : CommentsApart s) :
    ∃ d', Document.parse (Shrink.removeComments s) = .ok d' ∧ d'.source = d.withoutComments.source := by
  obtain ⟨cut, builds⟩ := Document.builds_piecesOf parsed
  have back := cut.readsBack
  rw [removeComments_eq apart cut]
  refine exists_parse_of_builds (fun p member => back p (List.mem_filter.mp member).1) ?_
  exact builds.withoutComments (splitMark_fst s) back

/-- A text with comments before the root, between runs, alone in an element, and after the root. -/
def commented : Text :=
  byteOrderMark :: "<?x?><!-- 1 -->\n<svg>a<!---->b&amp;<g ><!-- -\n- --></g></svg> <!--<g/>-->".toList

/-- The document that is read from it. -/
def commentedDocument : Document :=
  ⟨[[byteOrderMark], "<?x?>".toList, "<!-- 1 -->".toList, "\n".toList],
    ⟨⟨"svg".toList, [], false⟩,
      .raw ['a'] (.raw "<!---->".toList (.raw ['b'] (.raw "&amp;".toList
        (.element ⟨['g'], [], false⟩ (.raw "<!-- -\n- -->".toList .nil) .nil))))⟩,
    [[' '], "<!--<g/>-->".toList]⟩

theorem parse_removeComments_commented :
    Document.parse commented = .ok commentedDocument ∧ CommentsApart commented ∧
      ∃ d', Document.parse (Shrink.removeComments commented) = .ok d' ∧
        d'.source = commentedDocument.withoutComments.source := by
  have parsed : Document.parse commented = .ok commentedDocument := by cbv
  have pieces : piecesOf commented = [.instruction ['x'], .comment " 1 ".toList, .text ['\n'], .startTag "svg".toList,
      .text ['a'], .comment [], .text ['b'], .reference "amp".toList, .startTag "g ".toList,
      .comment " -\n- ".toList, .endTag ['g'], .endTag "svg".toList, .text [' '], .comment "<g/>".toList] := by cbv
  have apart : CommentsApart commented := by
    unfold CommentsApart
    rw [pieces]
    decide +kernel
  exact ⟨parsed, apart, parse_removeComments parsed apart⟩

example : commentedDocument.withoutComments.source =
    byteOrderMark :: "<?x?>\n<svg>ab&amp;<g></g></svg> ".toList := by decide

end SvgEdit
