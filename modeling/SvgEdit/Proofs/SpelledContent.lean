import SvgEdit.Proofs.Tidy

/-!
# Content as it is spelled

Spelled content is a tree of spelled tags and the pieces between them, so that what shrinking does to
a text can be followed on the tree. The source of a tree with one root is accepted.
-/
namespace SvgEdit

/-- Pieces and elements one after the other; an end tag has the name of its start tag, and blanks. -/
inductive SpelledContent
  | nil
  | other (piece : Piece) (next : SpelledContent)
  | empty (tag : SpelledTag) (next : SpelledContent)
  | element (tag : SpelledTag) (blanks : Text) (inside next : SpelledContent)

/-- What pieces and tags are like. -/
structure Terms where
  piece : Piece → Prop
  tag : SpelledTag → Prop

namespace SpelledTag

/--
The tag keeps its name and the keys of its attributes, but for those of attributes that are dropped. A key
that it did not have before has no colon.
-/
structure Keeps (drops : SpelledAttribute → Prop) (t t' : SpelledTag) : Prop where
  name : t'.name = t.name
  keys : ∀ key ∈ t'.keys, key ∈ t.keys ∨ ':' ∉ key
  kept : ∀ a ∈ t.attributes, ¬ drops a → a.key ∈ t'.keys

variable {drops drops' : SpelledAttribute → Prop}

theorem Keeps.of_keys {t t' : SpelledTag} (name : t'.name = t.name) (keys : t'.keys = t.keys) : t.Keeps drops t' :=
  ⟨name, fun _ member => .inl (keys ▸ member), fun _ member _ => keys ▸ List.mem_map_of_mem member⟩

theorem Keeps.refl (t : SpelledTag) : t.Keeps drops t := .of_keys rfl rfl

theorem Keeps.mono (more : ∀ a, drops a → drops' a) {t t' : SpelledTag} (h : t.Keeps drops t') : t.Keeps drops' t' :=
  ⟨h.name, h.keys, fun a member stays => h.kept a member fun dropped => stays (more a dropped)⟩

end SpelledTag

/-- A root that is complete stays the root. -/
theorem Nesting.root_of_run {st st' : Nesting} {ps : List Piece} (ran : st.run ps = some st') {name : Text}
    (root : st.root = some name) : st'.root = some name := by
  induction ps generalizing st with
  | nil =>
    obtain rfl := Option.some.inj ran
    exact root
  | cons p ps ih =>
    obtain ⟨next, stepped, later⟩ := run_cons_eq_some_iff.mp ran
    refine ih later ?_
    have kept {opened : List Text} {name' : Text} (done : complete ⟨opened, st.root⟩ name' = some next) :
        next.root = some name := by
      rw [complete] at done
      split at done
      · cases done
      · next noRoot =>
        rw [root] at noRoot
        cases noRoot
      · obtain rfl := Option.some.inj done
        exact root
    unfold step at stepped
    split at stepped
    · split at stepped
      · obtain rfl := Option.some.inj stepped
        exact root
      · cases stepped
    · split at stepped
      · exact kept stepped
      · cases stepped
    · split at stepped
      · cases stepped
      · split at stepped
        · exact kept stepped
        · cases stepped
    · split at stepped
      · cases stepped
      · obtain rfl := Option.some.inj stepped
        exact root
    · obtain rfl := Option.some.inj stepped
      exact root

namespace SpelledContent

def pieces : SpelledContent → List Piece
  | nil => []
  | other p next => p :: next.pieces
  | empty t next => .emptyTag t.inside :: next.pieces
  | element t blanks inside next =>
    .startTag t.inside :: (inside.pieces ++ .endTag (t.name ++ blanks) :: next.pieces)

def source (c : SpelledContent) : Text := c.pieces.flatMap Piece.source

def Meets (terms : Terms) : SpelledContent → Prop
  | nil => True
  | other p next => terms.piece p ∧ next.Meets terms
  | empty t next => terms.tag t ∧ next.Meets terms
  | element t blanks inside next => (terms.tag t ∧ Spaces blanks) ∧ inside.Meets terms ∧ next.Meets terms

/-- No tag, and no text but blanks. -/
def Outside : SpelledContent → Prop
  | nil => True
  | other p next => p.isOutside = true ∧ next.Outside
  | _ => False

/-- One element at the top level, with the given name. -/
def Rooted (name : Text) : SpelledContent → Prop
  | nil => False
  | other p next => p.isOutside = true ∧ next.Rooted name
  | empty t next => t.name = name ∧ next.Outside
  | element t _ _ next => t.name = name ∧ next.Outside

/-! ## Sources -/

theorem source_nil : nil.source = [] := rfl

theorem source_other (p : Piece) (next : SpelledContent) : (other p next).source = p.source ++ next.source := by
  simp [source, pieces]

theorem source_empty (t : SpelledTag) (next : SpelledContent) :
    (empty t next).source = (Piece.emptyTag t.inside).source ++ next.source := by
  simp [source, pieces]

theorem source_element (t : SpelledTag) (blanks : Text) (inside next : SpelledContent) :
    (element t blanks inside next).source =
      (Piece.startTag t.inside).source ++ (inside.source ++ ((Piece.endTag (t.name ++ blanks)).source ++ next.source)) := by
  simp [source, pieces]

/-! ## Acceptance -/

section Acceptance

variable {terms : Terms}

/-- What holds of every piece and of every tag as a piece holds of all pieces. -/
theorem forall_pieces {is : Piece → Prop} (other : ∀ p, terms.piece p → is p)
    (start : ∀ t, terms.tag t → is (.startTag t.inside)) (empty : ∀ t, terms.tag t → is (.emptyTag t.inside))
    (close : ∀ t blanks, terms.tag t → Spaces blanks → is (.endTag (t.name ++ blanks))) {c : SpelledContent}
    (meets : c.Meets terms) : ∀ p ∈ c.pieces, is p := by
  induction c with
  | nil => exact fun _ member => absurd member List.not_mem_nil
  | other q next ih => exact List.forall_mem_cons.mpr ⟨other q meets.1, ih meets.2⟩
  | empty t next ih => exact List.forall_mem_cons.mpr ⟨empty t meets.1, ih meets.2⟩
  | element t blanks inside next ihInside ihNext =>
    obtain ⟨⟨here, blank⟩, within, later⟩ := meets
    refine List.forall_mem_cons.mpr ⟨start t here, List.forall_mem_append.mpr ⟨ihInside within, ?_⟩⟩
    exact List.forall_mem_cons.mpr ⟨close t blanks here blank, ihNext later⟩

theorem step_of_not_isTag {st : Nesting} {p : Piece} (other : p.isTag = false)
    (allowed : st.opened ≠ [] ∨ p.isOutside = true) : st.step p = some st := by
  cases p with
  | text run =>
    have inside : ¬ (st.opened = [] ∧ ¬ Text.isBlankText run) := by
      rintro ⟨outside, notBlank⟩
      rcases allowed with inner | blank
      · exact inner outside
      · exact notBlank blank
    rw [Nesting.step, if_neg inside]
  | startTag => cases other
  | emptyTag => cases other
  | endTag => cases other
  | _ => rfl

/-- Inside of an element, content leads back to where it began. -/
theorem run_pieces (noTag : ∀ p, terms.piece p → p.isTag = false) (fit : ∀ t, terms.tag t → t.Fit)
    {c : SpelledContent} (meets : c.Meets terms) {st : Nesting} (inner : st.opened ≠ []) :
    st.run c.pieces = some st := by
  induction c generalizing st with
  | nil => rfl
  | other p next ih =>
    rw [pieces, Nesting.run, step_of_not_isTag (noTag p meets.1) (.inl inner)]
    exact ih meets.2 inner
  | empty t next ih =>
    rw [pieces, Nesting.run, Nesting.step, if_pos (fit t meets.1).readable_inside, Nesting.complete_of_opened inner]
    exact ih meets.2 inner
  | element t blanks inside next ihInside ihNext =>
    obtain ⟨⟨here, blank⟩, within, later⟩ := meets
    have proper := (fit t here).proper
    rw [pieces, Nesting.run, Nesting.step, if_pos (fit t here).readable_inside, Option.bind_some, Nesting.run_append,
      ihInside within (List.cons_ne_nil _ _), Option.bind_some, Nesting.run, Nesting.step,
      proper.tagName_inside, proper.name.endName blank]
    simp only [if_true]
    rw [Nesting.complete_of_opened inner]
    exact ihNext later inner

/-- At the top level, an element completes the root. -/
theorem run_element (noTag : ∀ p, terms.piece p → p.isTag = false) (fit : ∀ t, terms.tag t → t.Fit) {t : SpelledTag}
    {blanks : Text} {inside next : SpelledContent} (meets : (element t blanks inside next).Meets terms)
    (root : Option Text) : Nesting.run ⟨[], root⟩ (element t blanks inside next).pieces =
      (Nesting.complete ⟨[], root⟩ t.name).bind fun st => st.run next.pieces := by
  obtain ⟨⟨here, blank⟩, within, later⟩ := meets
  have proper := (fit t here).proper
  rw [pieces, Nesting.run, Nesting.step, if_pos (fit t here).readable_inside, Option.bind_some, Nesting.run_append,
    run_pieces noTag fit within (List.cons_ne_nil _ _), Option.bind_some, Nesting.run, Nesting.step,
    proper.tagName_inside, proper.name.endName blank]
  simp only [if_true]

theorem run_other (noTag : ∀ p, terms.piece p → p.isTag = false) {p : Piece} (here : terms.piece p)
    {root : Option Text} {ps : List Piece} {st : Nesting} :
    Nesting.run ⟨[], root⟩ (p :: ps) = some st ↔ p.isOutside = true ∧ Nesting.run ⟨[], root⟩ ps = some st := by
  cases outside : p.isOutside with
  | true => rw [Nesting.run, step_of_not_isTag (noTag p here) (.inr outside)]; simp
  | false =>
    obtain ⟨r, rfl⟩ : ∃ r, p = .text r := by
      cases p with
      | text r => exact ⟨r, rfl⟩
      | startTag => cases noTag _ here
      | emptyTag => cases noTag _ here
      | endTag => cases noTag _ here
      | _ => cases outside
    have notBlank : ¬ Text.isBlankText r := by simpa [Piece.isOutside] using outside
    simp [Nesting.run, Nesting.step, notBlank]

theorem run_outside_iff (noTag : ∀ p, terms.piece p → p.isTag = false) (fit : ∀ t, terms.tag t → t.Fit)
    {c : SpelledContent} (meets : c.Meets terms) (name : Text) :
    Nesting.run ⟨[], some name⟩ c.pieces = some ⟨[], some name⟩ ↔ c.Outside := by
  induction c with
  | nil => simp [pieces, Nesting.run, Outside]
  | other p next ih => rw [pieces, run_other noTag meets.1, ih meets.2, Outside]
  | empty t next ih =>
    rw [pieces, Nesting.run, Nesting.step, if_pos (fit t meets.1).readable_inside]
    simp [Nesting.complete, Outside]
  | element t blanks inside next _ _ =>
    rw [run_element noTag fit meets]
    simp [Nesting.complete, Outside]

/-- Content leads to a root exactly if it has one element at the top level. -/
theorem run_rooted_iff (noTag : ∀ p, terms.piece p → p.isTag = false) (fit : ∀ t, terms.tag t → t.Fit)
    {c : SpelledContent} (meets : c.Meets terms) {name : Text} :
    Nesting.run ⟨[], none⟩ c.pieces = some ⟨[], some name⟩ ↔ c.Rooted name := by
  have outside {t : SpelledTag} {next : SpelledContent} (later : next.Meets terms) :
      ((Nesting.complete ⟨[], none⟩ t.name).bind fun st => st.run next.pieces) = some ⟨[], some name⟩ ↔
        t.name = name ∧ next.Outside := by
    rw [Nesting.complete, Option.bind_some]
    constructor
    · intro ran
      obtain rfl : name = t.name := Option.some.inj (Nesting.root_of_run ran rfl)
      exact ⟨rfl, (run_outside_iff noTag fit later _).mp ran⟩
    · rintro ⟨rfl, outside⟩
      exact (run_outside_iff noTag fit later _).mpr outside
  induction c with
  | nil => simp [pieces, Nesting.run, Rooted]
  | other p next ih => exact (run_other noTag meets.1).trans (and_congr_right fun _ => ih meets.2)
  | empty t next ih =>
    rw [pieces, Nesting.run, Nesting.step, if_pos (fit t meets.1).readable_inside,
      (fit t meets.1).proper.tagName_inside, outside meets.2, Rooted]
  | element t blanks inside next _ _ => rw [run_element noTag fit meets, outside meets.2.2, Rooted]

end Acceptance

theorem Meets.mono {terms terms' : Terms} (piece : ∀ p, terms.piece p → terms'.piece p)
    (tag : ∀ t, terms.tag t → terms'.tag t) {c : SpelledContent} (meets : c.Meets terms) : c.Meets terms' := by
  induction c with
  | nil => trivial
  | other p next ih => exact ⟨piece p meets.1, ih meets.2⟩
  | empty t next ih => exact ⟨tag t meets.1, ih meets.2⟩
  | element t blanks inside next ihInside ihNext =>
    exact ⟨⟨tag t meets.1.1, meets.1.2⟩, ihInside meets.2.1, ihNext meets.2.2⟩

/-- What holds of the pieces other than tags may be added to the terms. -/
theorem Meets.and_of_pieces {terms : Terms} (noTag : ∀ p, terms.piece p → p.isTag = false) {is : Piece → Prop}
    {c : SpelledContent} (meets : c.Meets terms) (all : ∀ p ∈ c.pieces, p.isTag = false → is p) :
    c.Meets ⟨fun p => terms.piece p ∧ is p, terms.tag⟩ := by
  induction c with
  | nil => trivial
  | other p next ih =>
    obtain ⟨here, later⟩ := List.forall_mem_cons.mp all
    exact ⟨⟨meets.1, here (noTag p meets.1)⟩, ih meets.2 later⟩
  | empty t next ih => exact ⟨meets.1, ih meets.2 (List.forall_mem_cons.mp all).2⟩
  | element t blanks inside next ihInside ihNext =>
    obtain ⟨within, later⟩ := List.forall_mem_append.mp (List.forall_mem_cons.mp all).2
    exact ⟨meets.1, ihInside meets.2.1 within, ihNext meets.2.2 (List.forall_mem_cons.mp later).2⟩

/-! ## Content with less in it -/

section Reducing

variable {keeps keeps' : SpelledTag → SpelledTag → Prop} {gone gone' : Text → Prop}

/--
The second content is the first one without some of its pieces and elements. Elements that go have a name
that is `gone`, and the tags of the others are related. Runs of text that come to stand side by side may be
one run.
-/
inductive Reduces (keeps : SpelledTag → SpelledTag → Prop) (gone : Text → Prop) :
    SpelledContent → SpelledContent → Prop
  | nil : Reduces keeps gone nil nil
  | other {p p' : Piece} {next next' : SpelledContent} (blank : p.isOutside = true → p'.isOutside = true)
      (later : Reduces keeps gone next next') : Reduces keeps gone (other p next) (other p' next')
  | joined {p : Piece} {r r' : Text} {next next' : SpelledContent}
      (blank : p.isOutside = true → Text.isBlankText r = true)
      (later : Reduces keeps gone next (other (.text r') next')) :
      Reduces keeps gone (other p next) (other (.text (r ++ r')) next')
  | noOther {p : Piece} {next next' : SpelledContent} (later : Reduces keeps gone next next') :
      Reduces keeps gone (other p next) next'
  | empty {t t' : SpelledTag} {next next' : SpelledContent} (tag : keeps t t')
      (later : Reduces keeps gone next next') : Reduces keeps gone (empty t next) (empty t' next')
  | noEmpty {t : SpelledTag} {next next' : SpelledContent} (goes : gone t.name)
      (later : Reduces keeps gone next next') : Reduces keeps gone (empty t next) next'
  | element {t t' : SpelledTag} {blanks blanks' : Text} {inside inside' next next' : SpelledContent}
      (tag : keeps t t') (within : Reduces keeps gone inside inside') (later : Reduces keeps gone next next') :
      Reduces keeps gone (element t blanks inside next) (element t' blanks' inside' next')
  | noElement {t : SpelledTag} {blanks : Text} {inside next next' : SpelledContent} (goes : gone t.name)
      (later : Reduces keeps gone next next') : Reduces keeps gone (element t blanks inside next) next'

namespace Reduces

theorem mono (tags : ∀ t t', keeps t t' → keeps' t t') (names : ∀ name, gone name → gone' name)
    {c c' : SpelledContent} (h : c.Reduces keeps gone c') : c.Reduces keeps' gone' c' := by
  induction h with
  | nil => exact .nil
  | other blank _ ih => exact .other blank ih
  | joined blank _ ih => exact .joined blank ih
  | noOther _ ih => exact .noOther ih
  | empty tag _ ih => exact .empty (tags _ _ tag) ih
  | noEmpty goes _ ih => exact .noEmpty (names _ goes) ih
  | element tag _ _ ihWithin ihLater => exact .element (tags _ _ tag) ihWithin ihLater
  | noElement goes _ ih => exact .noElement (names _ goes) ih

theorem blank_joined {r r' : Text} (left : Text.isBlankText r = true)
    (right : (Piece.text r').isOutside = true) : (Piece.text (r ++ r')).isOutside = true := by
  have both : Text.isBlankText (r ++ r') = (Text.isBlankText r && Text.isBlankText r') := List.all_append
  exact both.trans (Bool.and_eq_true_iff.mpr ⟨left, right⟩)

theorem outside {c c' : SpelledContent} (h : c.Reduces keeps gone c') (outside : c.Outside) : c'.Outside := by
  induction h with
  | nil => trivial
  | other blank _ ih => exact ⟨blank outside.1, ih outside.2⟩
  | joined blank _ ih => exact ⟨blank_joined (blank outside.1) (ih outside.2).1, (ih outside.2).2⟩
  | noOther _ ih => exact ih outside.2
  | empty => exact outside.elim
  | noEmpty => exact outside.elim
  | element => exact outside.elim
  | noElement => exact outside.elim

/-- The root stays, unless its name is gone. -/
theorem rooted {c c' : SpelledContent} (h : c.Reduces keeps gone c') (named : ∀ t t', keeps t t' → t'.name = t.name)
    {name : Text} (stays : ¬ gone name) (rooted : c.Rooted name) : c'.Rooted name := by
  induction h with
  | nil => exact rooted
  | other blank _ ih => exact ⟨blank rooted.1, ih rooted.2⟩
  | joined blank _ ih => exact ⟨blank_joined (blank rooted.1) (ih rooted.2).1, (ih rooted.2).2⟩
  | noOther _ ih => exact ih rooted.2
  | empty tag later => exact ⟨(named _ _ tag).trans rooted.1, later.outside rooted.2⟩
  | noEmpty goes => exact absurd (rooted.1 ▸ goes) stays
  | element tag _ later => exact ⟨(named _ _ tag).trans rooted.1, later.outside rooted.2⟩
  | noElement goes => exact absurd (rooted.1 ▸ goes) stays

end Reduces

end Reducing

/-! ## Runs put together -/

/-- Whether a run of text stands first. -/
def startsRun : SpelledContent → Bool
  | other p _ => p.isRun
  | _ => false

/-- No run of text is empty or follows another one. -/
def RunsApart : SpelledContent → Prop
  | nil => True
  | other p next => (p.isRun = true → p ≠ .text [] ∧ next.startsRun = false) ∧ next.RunsApart
  | empty _ next => next.RunsApart
  | element _ _ inside next => inside.RunsApart ∧ next.RunsApart

/-- What follows a run of text ends it. -/
theorem endsRuns_source {c : SpelledContent} (starts : c.startsRun = false) {s : Text} (ends : EndsRuns s) :
    EndsRuns (c.source ++ s) := by
  cases c with
  | nil => exact ends
  | other p next =>
    rw [source_other]
    have first := SvgEdit.endsRuns_source starts
    cases p with
    | text run => cases starts
    | _ => exact first
  | empty t next =>
    rw [source_empty]
    exact fun _ head => Option.some.inj head ▸ rfl
  | element t blanks inside next =>
    rw [source_element]
    exact fun _ head => Option.some.inj head ▸ rfl

/-- The source of content whose runs are apart is cut into its pieces. -/
theorem cut_source {terms : Terms} (solid : ∀ p, terms.piece p → p.Solid) (fit : ∀ t, terms.tag t → t.Fit)
    {c : SpelledContent} (meets : c.Meets terms) (apart : c.RunsApart) {s : Text} (ends : EndsRuns s) {ps : List Piece}
    (cut : Cut s ps) : Cut (c.source ++ s) (c.pieces ++ ps) := by
  have markup {p : Piece} (other : p.isRun = false) {rest : Text} (run : p.isRun = true) : EndsRuns rest := by
    rw [other] at run
    cases run
  induction c generalizing s ps with
  | nil => exact cut
  | other p next ih =>
    rw [source_other, List.append_assoc]
    refine .cons ?_ (fun run => endsRuns_source (apart.1 run).2 ends) (ih meets.2 apart.2 ends cut)
    cases p with
    | text run =>
      refine readsBack_text_iff.mpr ⟨?_, solid _ meets.1⟩
      rintro rfl
      exact (apart.1 rfl).1 rfl
    | _ => exact solid _ meets.1
  | empty t next ih =>
    rw [source_empty, List.append_assoc]
    exact .cons (fit t meets.1).proper.readsBack_emptyTag (markup rfl) (ih meets.2 apart ends cut)
  | element t blanks inside next ihInside ihNext =>
    obtain ⟨⟨here, blank⟩, within, later⟩ := meets
    have proper := (fit t here).proper
    have close : Cut ((Piece.endTag (t.name ++ blanks)).source ++ (next.source ++ s))
        (.endTag (t.name ++ blanks) :: (next.pieces ++ ps)) :=
      .cons (proper.name.readsBack_endTag blank) (markup rfl) (ihNext later apart.2 ends cut)
    have ends' : EndsRuns ((Piece.endTag (t.name ++ blanks)).source ++ (next.source ++ s)) :=
      fun _ head => Option.some.inj head ▸ rfl
    have inner := ihInside within apart.1 ends' close
    have whole := Cut.cons proper.readsBack_startTag (markup rfl) inner
    rw [source_element, pieces]
    simpa using whole

/-- The source of content with one root is accepted, also after byte order marks. -/
theorem exists_parse {terms : Terms} (solid : ∀ p, terms.piece p → p.Solid)
    (noTag : ∀ p, terms.piece p → p.isTag = false) (fit : ∀ t, terms.tag t → t.Fit) {c : SpelledContent}
    (meets : c.Meets terms) (apart : c.RunsApart) {name : Text} (rooted : c.Rooted name) {k : Nat} (few : k ≤ 2) :
    Cut (bodyOf (List.replicate k byteOrderMark ++ c.source)) c.pieces ∧
      ∃ d, Document.parse (List.replicate k byteOrderMark ++ c.source) = .ok d := by
  have cut : Cut c.source c.pieces := by
    have all := cut_source solid fit meets apart (s := []) (fun _ head => nomatch head) .done
    rwa [List.append_nil, List.append_nil] at all
  obtain ⟨body, parsed⟩ := exists_parse_of_run cut ((run_rooted_iff noTag fit meets).mpr rooted) few
  exact ⟨body.symm ▸ cut, parsed⟩

/-- A piece before content, put together with the run of text that follows it. -/
theorem exists_joined {terms : Terms}
    (joins : ∀ r r', terms.piece (.text r) → terms.piece (.text r') → terms.piece (.text (r ++ r')))
    {p p' : Piece} (here : terms.piece p') (blank : p.isOutside = true → p'.isOutside = true)
    {keeps : SpelledTag → SpelledTag → Prop} {gone : Text → Prop} {next next' : SpelledContent}
    (meets : next'.Meets terms) (apart : next'.RunsApart) (later : next.Reduces keeps gone next') :
    ∃ c : SpelledContent, c.source = p'.source ++ next'.source ∧ c.Meets terms ∧ c.RunsApart ∧
      (other p next).Reduces keeps gone c := by
  by_cases empty : p' = .text []
  · rw [empty]
    exact ⟨next', rfl, meets, apart, .noOther later⟩
  by_cases both : p'.isRun = true ∧ next'.startsRun = true
  · cases p' with
    | text r =>
      cases next' with
      | other q rest =>
        cases q with
        | text r' =>
          have some : r ≠ [] := fun none => empty (congrArg Piece.text none)
          refine ⟨other (.text (r ++ r')) rest, ?_, ⟨joins r r' here meets.1, meets.2⟩,
            ⟨fun run => ⟨by simp [some], (apart.1 run).2⟩, apart.2⟩, .joined blank later⟩
          rw [source_other, source_other]
          exact List.append_assoc ..
        | _ => cases both.2
      | _ => cases both.2
    | _ => cases both.1
  · refine ⟨other p' next', source_other p' next', ⟨here, meets⟩, ⟨fun run => ⟨empty, ?_⟩, apart⟩, .other blank later⟩
    simpa using fun starts => both ⟨run, starts⟩

theorem exists_runsApart {terms : Terms}
    (joins : ∀ r r', terms.piece (.text r) → terms.piece (.text r') → terms.piece (.text (r ++ r')))
    {gone : Text → Prop} {c : SpelledContent} (meets : c.Meets terms) :
    ∃ c' : SpelledContent, c'.source = c.source ∧ c'.Meets terms ∧ c'.RunsApart ∧ c.Reduces (· = ·) gone c' := by
  induction c with
  | nil => exact ⟨nil, rfl, trivial, trivial, .nil⟩
  | other p next ih =>
    obtain ⟨next', source, meets', apart, later⟩ := ih meets.2
    obtain ⟨c, source', whole⟩ := exists_joined joins meets.1 id meets' apart later
    exact ⟨c, by rw [source', source_other, source], whole⟩
  | empty t next ih =>
    obtain ⟨next', source, meets', apart, later⟩ := ih meets.2
    exact ⟨empty t next', by rw [source_empty, source_empty, source], ⟨meets.1, meets'⟩, apart, .empty rfl later⟩
  | element t blanks inside next ihInside ihNext =>
    obtain ⟨inside', source, meets', apart, within⟩ := ihInside meets.2.1
    obtain ⟨next', source', meets'', apart', later⟩ := ihNext meets.2.2
    exact ⟨element t blanks inside' next', by rw [source_element, source_element, source, source'],
      ⟨meets.1, meets', meets''⟩, ⟨apart, apart'⟩, .element rfl within later⟩

end SpelledContent

/--
The text is the source of content with the given terms, of which the given fact is true. As many byte
order marks as are taken off may stand before it.
-/
def Terms.Holds (terms : Terms) (fact : SpelledContent → Prop) (s : Text) : Prop :=
  ∃ k ≤ 2, ∃ c : SpelledContent, List.replicate k byteOrderMark ++ c.source = s ∧ c.Meets terms ∧ c.RunsApart ∧ fact c

theorem Terms.Holds.mono {terms terms' : Terms} (piece : ∀ p, terms.piece p → terms'.piece p)
    (tag : ∀ t, terms.tag t → terms'.tag t) {fact : SpelledContent → Prop} {s : Text} (h : terms.Holds fact s) :
    terms'.Holds fact s := by
  obtain ⟨k, few, c, rfl, meets, apart, known⟩ := h
  exact ⟨k, few, c, rfl, meets.mono piece tag, apart, known⟩

end SvgEdit
