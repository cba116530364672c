import SvgEdit.Proofs.Faults
import SvgEdit.Proofs.PieceSources

/-!
# Runs of text joined

Where pieces are taken out of a text, runs of text that they kept apart are read as one run. `joinRuns` joins
them. The text stays the same, tags stay where they are, and what is built has the same source.
-/
namespace SvgEdit

/-- A piece before others; a run of text goes on into a run that comes first. -/
def Piece.joinTo : Piece → List Piece → List Piece
  | text run, text more :: ps => text (run ++ more) :: ps
  | p, ps => p :: ps

/-- The pieces, neighbouring runs of text joined. -/
def joinRuns (ps : List Piece) : List Piece := ps.foldr Piece.joinTo []

theorem joinRuns_cons (p : Piece) (ps : List Piece) : joinRuns (p :: ps) = p.joinTo (joinRuns ps) := rfl

namespace Piece

theorem joinTo_of_markup {p : Piece} (markup : p.isRun = false) (ps : List Piece) : p.joinTo ps = p :: ps := by
  cases p with
  | text run => cases markup
  | _ => rfl

/-- Either the piece is put before the others, or it is a run and goes on into the first of them. -/
theorem joinTo_cases (p : Piece) (ps : List Piece) :
    (p.joinTo ps = p :: ps ∧ (p.isRun = true → ∀ q ∈ ps.head?, q.isRun = false)) ∨
      ∃ run more rest, p = text run ∧ ps = text more :: rest ∧ p.joinTo ps = text (run ++ more) :: rest := by
  by_cases markup : p.isRun = false
  · refine .inl ⟨joinTo_of_markup markup ps, fun run => ?_⟩
    rw [run] at markup
    cases markup
  · cases p with
    | text run =>
      cases ps with
      | nil => exact .inl ⟨rfl, fun _ _ head => nomatch head⟩
      | cons q rest =>
        cases q with
        | text more => exact .inr ⟨run, more, rest, rfl, rfl, rfl⟩
        | _ =>
          refine .inl ⟨rfl, fun _ q head => ?_⟩
          obtain rfl := Option.some.inj head
          rfl
    | _ => exact absurd rfl markup

theorem source_joinTo (p : Piece) (ps : List Piece) :
    (p.joinTo ps).flatMap source = p.source ++ ps.flatMap source := by
  rcases p.joinTo_cases ps with ⟨same, -⟩ | ⟨run, more, rest, rfl, rfl, same⟩
  · rw [same, List.flatMap_cons]
  · simp [same, source]

theorem tags_joinTo (p : Piece) (ps : List Piece) : (p.joinTo ps).filter isTag = (p :: ps).filter isTag := by
  rcases p.joinTo_cases ps with ⟨same, -⟩ | ⟨run, more, rest, rfl, rfl, same⟩
  · rw [same]
  · simp [same, isTag]

theorem apart_joinTo (p : Piece) {ps : List Piece} (apart : Apart ps) : Apart (p.joinTo ps) := by
  rcases p.joinTo_cases ps with ⟨same, ends⟩ | ⟨run, more, rest, rfl, rfl, same⟩
  · rw [same]
    cases ps with
    | nil => exact .singleton p
    | cons q ps => exact .cons_cons (fun run => ends run q rfl) apart
  · rw [same]
    refine apart_of_same ?_ apart
    rfl

theorem readsBack_append_run {run more : Text} (first : (text run).ReadsBack) (second : (text more).ReadsBack) :
    (text (run ++ more)).ReadsBack := by
  obtain ⟨nonempty, flat⟩ := readsBack_text_iff.mp first
  obtain ⟨-, flat'⟩ := readsBack_text_iff.mp second
  refine readsBack_text_iff.mpr ⟨List.append_ne_nil_of_left_ne_nil nonempty more, fun c member => ?_⟩
  exact (List.mem_append.mp member).elim (flat c) (flat' c)

end Piece

section

variable {ps : List Piece}

/-- What holds of all pieces, and of a run with the next one, holds of all pieces once runs are joined. -/
theorem forall_joinRuns {P : Piece → Prop}
    (joins : ∀ run more, P (.text run) → P (.text more) → P (.text (run ++ more))) (all : ∀ p ∈ ps, P p) :
    ∀ p ∈ joinRuns ps, P p := by
  induction ps with
  | nil => exact fun _ member => absurd member List.not_mem_nil
  | cons p ps ih =>
    have here := all p List.mem_cons_self
    have later := ih fun q member => all q (List.mem_cons_of_mem p member)
    rw [joinRuns_cons]
    rcases p.joinTo_cases (joinRuns ps) with ⟨same, -⟩ | ⟨run, more, rest, rfl, whole, same⟩
    · rw [same]
      exact List.forall_mem_cons.mpr ⟨here, later⟩
    · rw [whole] at later
      obtain ⟨next, later⟩ := List.forall_mem_cons.mp later
      rw [same]
      exact List.forall_mem_cons.mpr ⟨joins run more here next, later⟩

theorem source_joinRuns (ps : List Piece) : (joinRuns ps).flatMap Piece.source = ps.flatMap Piece.source := by
  induction ps with
  | nil => rfl
  | cons p ps ih => rw [joinRuns_cons, Piece.source_joinTo, ih, List.flatMap_cons]

theorem tags_joinRuns (ps : List Piece) : (joinRuns ps).filter Piece.isTag = ps.filter Piece.isTag := by
  induction ps with
  | nil => rfl
  | cons p ps ih => rw [joinRuns_cons, Piece.tags_joinTo, List.filter_cons, List.filter_cons, ih]

theorem apart_joinRuns (ps : List Piece) : Apart (joinRuns ps) := by
  induction ps with
  | nil => exact .nil
  | cons p ps ih => exact p.apart_joinTo ih

/-- Pieces one after the other are read with their runs joined. -/
theorem cut_joinRuns (back : ∀ p ∈ ps, p.ReadsBack) : Cut (ps.flatMap Piece.source) (joinRuns ps) := by
  rw [← source_joinRuns]
  exact cut_of_readsBack (forall_joinRuns (fun _ _ => Piece.readsBack_append_run) back) (apart_joinRuns ps)

/-- Runs are joined up to markup and after it. -/
theorem joinRuns_append {p : Piece} (markup : p.isRun = false) (ps qs : List Piece) :
    joinRuns (ps ++ p :: qs) = joinRuns ps ++ p :: joinRuns qs := by
  induction ps with
  | nil => exact Piece.joinTo_of_markup markup _
  | cons q ps ih =>
    rw [List.cons_append, joinRuns_cons, ih, joinRuns_cons]
    rcases q.joinTo_cases (joinRuns ps) with ⟨same, ends⟩ | ⟨run, more, rest, rfl, whole, same⟩
    · rw [same]
      by_cases run : q.isRun = true
      · cases joined : joinRuns ps with
        | nil =>
          cases q with
          | text r =>
            cases p with
            | text r' => cases markup
            | _ => rfl
          | _ => cases run
        | cons q' rest =>
          rw [joined] at ends
          have markup' := ends run q' rfl
          cases q with
          | text r =>
            cases q' with
            | text r' => cases markup'
            | _ => rfl
          | _ => cases run
      · exact Piece.joinTo_of_markup (by simpa using run) _
    · rw [same, whole]
      rfl

end

/-! ## What is built -/

/-- Content that differs in how its text is cut into runs. -/
structure Content.Recut (c c' : Content) : Prop where
  source : c'.source = c.source
  empty : c' = .nil ↔ c = .nil

theorem Content.Recut.element {tag : Tag} {inner inner' next next' : Content} (within : inner.Recut inner')
    (later : next.Recut next') : (Content.element tag inner next).Recut (.element tag inner' next') := by
  refine ⟨?_, by simp⟩
  rw [Content.source, Content.source, within.source, later.source]
  simp only [within.empty]

theorem Builds.exists_joinRuns {ps : List Piece} {c : Content} (h : Builds ps c) :
    ∃ c', Builds (joinRuns ps) c' ∧ c.Recut c' := by
  induction h with
  | nil => exact ⟨.nil, .nil, rfl, Iff.rfl⟩
  | @raw p ps next other later ih =>
    obtain ⟨next', builds, recut⟩ := ih
    rw [joinRuns_cons]
    rcases p.joinTo_cases (joinRuns ps) with ⟨same, -⟩ | ⟨run, more, rest, rfl, whole, same⟩
    · rw [same]
      refine ⟨_, .raw other builds, ?_, by simp⟩
      rw [Content.source, recut.source, Content.source]
    · rw [whole] at builds
      have source := recut.source
      cases builds with
      | raw _ builds =>
        rw [same]
        refine ⟨_, .raw (p := .text (run ++ more)) rfl builds, ?_, by simp⟩
        rw [Content.source, Content.source, ← source, Content.source]
        simp [Piece.kept, Piece.source]
  | empty tag _ ih =>
    obtain ⟨next', builds, recut⟩ := ih
    exact ⟨_, .empty tag builds, .element ⟨rfl, Iff.rfl⟩ recut⟩
  | element tag closes _ _ within later =>
    obtain ⟨inner', builds, recut⟩ := within
    obtain ⟨next', builds', recut'⟩ := later
    rw [joinRuns_cons, joinRuns_append rfl, Piece.joinTo_of_markup rfl]
    exact ⟨_, .element tag closes builds builds', .element recut recut'⟩

theorem kept_joinRuns (ps : List Piece) : (joinRuns ps).flatMap Piece.kept = ps.flatMap Piece.kept := by
  induction ps with
  | nil => rfl
  | cons p ps ih =>
    rw [joinRuns_cons, List.flatMap_cons, ← ih]
    rcases p.joinTo_cases (joinRuns ps) with ⟨same, -⟩ | ⟨run, more, rest, rfl, whole, same⟩
    · rw [same, List.flatMap_cons]
    · rw [same, whole]
      simp [Piece.kept, Piece.source]

theorem outside_joinRuns {ps : List Piece} (outside : ∀ p ∈ ps, p.isOutside = true) :
    ∀ p ∈ joinRuns ps, p.isOutside = true := by
  refine forall_joinRuns (fun run more first second => ?_) outside
  simp only [Piece.isOutside, Text.isBlankText, List.all_append, Bool.and_eq_true] at first second ⊢
  exact ⟨first, second⟩

/-- The root is one element still, and begins and ends with markup. -/
theorem Builds.exists_joinRuns_root {ps : List Piece} {tag : Tag} {inner : Content}
    (h : Builds ps (.element tag inner .nil)) :
    ∃ inner', Builds (joinRuns ps) (.element tag inner' .nil) ∧ inner.Recut inner' ∧
      ∀ front back, joinRuns (front ++ (ps ++ back)) = joinRuns front ++ (joinRuns ps ++ joinRuns back) := by
  generalize whole : Content.element tag inner .nil = c at h
  cases h with
  | nil => cases whole
  | raw => cases whole
  | empty empty later =>
    obtain ⟨rfl, rfl, rfl⟩ := Content.element.inj whole
    cases later
    refine ⟨.nil, .empty empty .nil, ⟨rfl, Iff.rfl⟩, fun front back => ?_⟩
    rw [List.singleton_append, joinRuns_append rfl]
    rfl
  | @element inside close e ps _ _ _ start closes within later =>
    obtain ⟨rfl, rfl, rfl⟩ := Content.element.inj whole
    cases later
    obtain ⟨inner', builds, recut⟩ := within.exists_joinRuns
    have root (back : List Piece) : joinRuns (.startTag inside :: (ps ++ .endTag close :: back)) =
        .startTag inside :: (joinRuns ps ++ .endTag close :: joinRuns back) := by
      rw [joinRuns_cons, joinRuns_append rfl, Piece.joinTo_of_markup rfl]
    refine ⟨inner', ?_, recut, fun front back => ?_⟩
    · rw [root]
      exact .element start closes builds .nil
    · rw [List.cons_append, List.append_assoc, List.singleton_append, joinRuns_append rfl, joinRuns_append rfl, root]
      simp [joinRuns]

theorem BuildsDocument.exists_joinRuns {mark : Text} {ps : List Piece} {d : Document} (h : BuildsDocument mark ps d) :
    ∃ d', BuildsDocument mark (joinRuns ps) d' ∧ d'.source = d.source := by
  obtain ⟨front, middle, back, rfl, outside, outside', builds, prolog, epilog⟩ := h
  obtain ⟨inner', builds', recut, parts⟩ := builds.exists_joinRuns_root
  refine ⟨⟨(if mark = [] then [] else [mark]) ++ (joinRuns front).map Piece.kept, ⟨d.root.tag, inner'⟩,
    (joinRuns back).map Piece.kept⟩, ⟨_, _, _, parts front back, outside_joinRuns outside, outside_joinRuns outside',
      builds', rfl, rfl⟩, ?_⟩
  have kept (ps : List Piece) : ((joinRuns ps).map Piece.kept).flatten = (ps.map Piece.kept).flatten := kept_joinRuns ps
  simp only [Document.source, Element.source, prolog, epilog, List.flatten_append, kept, recut.source, recut.empty]

/-! ## Reading -/

theorem BuildsDocument.run {mark : Text} {ps : List Piece} {d : Document} (h : BuildsDocument mark ps d) :
    Nesting.run ⟨[], none⟩ ps = some ⟨[], some d.root.name⟩ := by
  obtain ⟨a, added, finished⟩ := Assembly.finish_addAll_iff.mpr h
  obtain ⟨opened, root, -, -⟩ := Assembly.finish_eq_ok_iff.mp finished
  have ran := Assembly.run_nesting ⟨[], if mark = [] then [] else [mark], none, []⟩ ps
  rw [added] at ran
  simpa [Except.toOption, Assembly.nesting, Assembly.names, opened, root] using ran

/-- A text that is a document consists of its pieces, and these build the document. -/
theorem Document.builds_piecesOf {s : Text} {d : Document} (parsed : Document.parse s = .ok d) :
    Cut (bodyOf s) (piecesOf s) ∧ BuildsDocument (splitMark s).1 (piecesOf s) d := by
  obtain ⟨ps, cut, builds⟩ := Document.parse_eq_ok_iff.mp parsed
  obtain ⟨a, added, -⟩ := Assembly.finish_addAll_iff.mpr builds
  have read : readPieces (bodyOf s) = (ps, none) := cut.readPiecesFrom (Assembly.nests_of_addAll added) 0
  have same : piecesOf s = ps := by rw [piecesOf, read]
  rw [same]
  exact ⟨cut, builds⟩

/-- The byte order marks that are taken off a text. -/
def marksOf (s : Text) : Text := (splitMark s).1 ++ (splitMark (splitMark s).2).1

theorem marksOf_append_bodyOf (s : Text) : marksOf s ++ bodyOf s = s := by
  rw [marksOf, bodyOf, List.append_assoc, splitMark_append, splitMark_append]

theorem mem_marksOf {s : Text} {c : Char} (member : c ∈ marksOf s) : c = byteOrderMark := by
  have mark (s : Text) : c ∈ (splitMark s).1 → c = byteOrderMark := by
    intro member
    rcases splitMark_fst s with none | one
    · rw [none] at member
      cases member
    · rw [one] at member
      exact List.mem_singleton.mp member
  exact (List.mem_append.mp member).elim (mark s) (mark _)

/-- The marks of a text are taken off again before any other body that does not begin with one. -/
theorem splitMark_marksOf (s : Text) {body : Text} (first : ∀ c ∈ body.head?, c ≠ byteOrderMark) :
    (splitMark (marksOf s ++ body)).1 = (splitMark s).1 ∧ bodyOf (marksOf s ++ body) = body := by
  rw [marksOf, bodyOf]
  rcases splitMark_fst s with unmarked | marked
  · rw [splitMark_again s unmarked, unmarked]
    exact splitMark_of_unmarked (.inl rfl) first
  · rcases splitMark_fst (splitMark s).2 with unmarked | marked'
    · rw [marked, unmarked]
      exact splitMark_of_unmarked (.inr rfl) first
    · rw [marked, marked']
      simp only [List.cons_append, List.nil_append, splitMark_cons, and_self]

/-- Other pieces that build a document are read after the marks of a text, whatever runs meet. -/
theorem exists_parse_of_builds {s : Text} {ps : List Piece} {d : Document} (back : ∀ p ∈ ps, p.ReadsBack)
    (builds : BuildsDocument (splitMark s).1 ps d) :
    ∃ d', Document.parse (marksOf s ++ ps.flatMap Piece.source) = .ok d' ∧ d'.source = d.source := by
  obtain ⟨d', builds', source⟩ := builds.exists_joinRuns
  obtain ⟨mark, body⟩ := splitMark_marksOf s (head?_source_ne builds.run)
  refine ⟨d', Document.parse_eq_ok_iff.mpr ⟨joinRuns ps, ?_, ?_⟩, source⟩
  · rw [← bodyOf, body]
    exact cut_joinRuns back
  · rw [mark]
    exact builds'

/-- A mark is taken off a run of text. -/
theorem exists_splitMark {ps : List Piece} (back : ∀ p ∈ ps, p.ReadsBack) :
    ∃ qs : List Piece, (∀ q ∈ qs, q.ReadsBack) ∧ (splitMark (ps.flatMap Piece.source)).2 = qs.flatMap Piece.source ∧
      qs.filter Piece.isTag = ps.filter Piece.isTag := by
  by_cases first : ∀ c ∈ (ps.flatMap Piece.source).head?, c ≠ byteOrderMark
  · exact ⟨ps, back, by rw [splitMark_of_ne first], rfl⟩
  · obtain ⟨rest, marked⟩ := exists_cons_of_marked first
    rw [marked, splitMark_cons]
    cases ps with
    | nil => cases marked
    | cons p ps =>
      obtain ⟨here, later⟩ := List.forall_mem_cons.mp back
      obtain ⟨c, s, source, -⟩ := back p List.mem_cons_self
      rw [List.flatMap_cons, source] at marked
      obtain ⟨rfl, rfl⟩ := List.cons.inj marked
      cases p with
      | text run =>
        obtain rfl : run = byteOrderMark :: s := source
        obtain ⟨-, flat⟩ := readsBack_text_iff.mp here
        by_cases empty : s = []
        · exact ⟨ps, later, by rw [empty]; rfl, rfl⟩
        · have shorter : (Piece.text s).ReadsBack :=
            readsBack_text_iff.mpr ⟨empty, fun c member => flat c (List.mem_cons_of_mem _ member)⟩
          exact ⟨.text s :: ps, List.forall_mem_cons.mpr ⟨shorter, later⟩, rfl, rfl⟩
      | _ => exact absurd (List.cons.inj source).1 (by decide)

/-- Whatever marks stand before pieces, the tags that are read are those of the pieces. -/
theorem exists_cut_bodyOf {marks : Text} (only : ∀ c ∈ marks, c = byteOrderMark) {ps : List Piece}
    (back : ∀ p ∈ ps, p.ReadsBack) :
    ∃ qs, Cut (bodyOf (marks ++ ps.flatMap Piece.source)) qs ∧ qs.filter Piece.isTag = ps.filter Piece.isTag := by
  obtain ⟨qs, back', whole, tags⟩ : ∃ qs : List Piece, (∀ q ∈ qs, q.ReadsBack) ∧
      marks ++ ps.flatMap Piece.source = qs.flatMap Piece.source ∧ qs.filter Piece.isTag = ps.filter Piece.isTag := by
    by_cases none : marks = []
    · exact ⟨ps, back, by rw [none]; rfl, rfl⟩
    · have run : (Piece.text marks).ReadsBack :=
        readsBack_text_iff.mpr ⟨none, fun c member => by rw [only c member]; rfl⟩
      exact ⟨.text marks :: ps, List.forall_mem_cons.mpr ⟨run, back⟩, rfl, rfl⟩
  obtain ⟨rs, back', whole', tags'⟩ := exists_splitMark back'
  obtain ⟨rs', back', whole'', tags''⟩ := exists_splitMark back'
  refine ⟨joinRuns rs', ?_, by rw [tags_joinRuns, tags'', tags', tags]⟩
  rw [bodyOf, whole, whole', whole'']
  exact cut_joinRuns back'

end SvgEdit
