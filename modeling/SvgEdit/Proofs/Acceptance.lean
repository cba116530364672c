import SvgEdit.Proofs.Parsing

/-!
# Which pieces are accepted

Whether pieces are put together depends on little of what has been put together: the names that are
open and the name of the root. `Nesting` keeps these, and a text is accepted exactly if its pieces
take it from the beginning to a root.
-/
namespace SvgEdit

/-- The names that are open, the innermost first, and the name of the root once it is complete. -/
structure Nesting where
  opened : List Text
  root : Option Text
deriving DecidableEq

/-- Whether the attributes of a tag can be read. -/
def readable (inside : Text) : Bool :=
  match readAttributes inside with
  | .ok _ => true
  | .error _ => false

theorem readable_iff {inside : Text} : readable inside = true ↔ ∃ as, readAttributes inside = .ok as := by
  unfold readable
  cases readAttributes inside <;> simp

namespace Nesting

/-- After an element of the given name. -/
def complete (st : Nesting) (name : Text) : Option Nesting :=
  match st.opened, st.root with
  | [], some _ => none
  | [], none => some ⟨[], some name⟩
  | opened, root => some ⟨opened, root⟩

/-- After one more piece. -/
def step (st : Nesting) : Piece → Option Nesting
  | .startTag inside => if readable inside then some { st with opened := tagName inside :: st.opened } else none
  | .emptyTag inside => if readable inside then st.complete (tagName inside) else none
  | .endTag inside =>
    match st.opened with
    | [] => none
    | name :: outer => if name = Piece.endName inside then { st with opened := outer }.complete name else none
  | .text run => if st.opened = [] ∧ ¬ Text.isBlankText run then none else some st
  | _ => some st

/-- After more pieces. -/
def run (st : Nesting) : List Piece → Option Nesting
  | [] => some st
  | p :: ps => (st.step p).bind fun st => st.run ps

theorem run_cons_eq_some_iff {st st' : Nesting} {p : Piece} {ps : List Piece} :
    st.run (p :: ps) = some st' ↔ ∃ next, st.step p = some next ∧ next.run ps = some st' := by
  rw [run, Option.bind_eq_some_iff]

theorem run_append (st : Nesting) (ps qs : List Piece) : st.run (ps ++ qs) = (st.run ps).bind fun st => st.run qs := by
  induction ps generalizing st with
  | nil => rfl
  | cons p ps ih =>
    rw [List.cons_append, run, run, Option.bind_assoc]
    exact congrArg _ (funext fun next => ih next)

theorem complete_of_opened {st : Nesting} (inner : st.opened ≠ []) (name : Text) : st.complete name = some st := by
  obtain ⟨opened, root⟩ := st
  cases opened with
  | nil => exact absurd rfl inner
  | cons => rfl

end Nesting

namespace Assembly

def nesting (a : Assembly) : Nesting := ⟨a.names, a.root.map Element.name⟩

theorem opened_eq_nil_iff (a : Assembly) : a.nesting.opened = [] ↔ a.opened = [] := by
  rw [nesting, names, List.map_eq_nil_iff]

theorem nesting_addRaw (a : Assembly) (source : Text) : (a.addRaw source).nesting = a.nesting := by
  obtain ⟨opened, prolog, root, epilog⟩ := a
  cases opened with
  | nil => cases root <;> rfl
  | cons e outer => rfl

theorem complete_nesting (a : Assembly) (e : Element) :
    a.nesting.complete e.name = (a.addElement e).toOption.map nesting := by
  obtain ⟨opened, prolog, root, epilog⟩ := a
  cases opened with
  | nil => cases root <;> rfl
  | cons outer rest => rfl

/-- Nesting is made with a piece exactly if it can be added. -/
theorem step_nesting (a : Assembly) (p : Piece) : a.nesting.step p = (a.add p).toOption.map nesting := by
  cases p with
  | startTag inside =>
    rw [Nesting.step, add, readable, tagElement]
    cases readAttributes inside with
    | ok as => rfl
    | error fault => cases fault <;> rfl
  | emptyTag inside =>
    rw [Nesting.step, add, readable, tagElement]
    cases readAttributes inside with
    | ok as => exact complete_nesting a ⟨⟨tagName inside, as, true⟩, .nil⟩
    | error fault => cases fault <;> rfl
  | endTag inside =>
    rw [Nesting.step, add, close]
    obtain ⟨opened, prolog, root, epilog⟩ := a
    cases opened with
    | nil => rfl
    | cons e outer =>
      by_cases same : e.name = Piece.endName inside
      · simp only [nesting, names, List.map_cons, same, if_true]
        rw [← same]
        exact complete_nesting ⟨outer, prolog, root, epilog⟩ e
      · simp only [nesting, names, List.map_cons, same, if_false]
        rfl
  | text run =>
    rw [Nesting.step, add]
    by_cases outside : a.opened = [] ∧ ¬ Text.isBlankText run
    · rw [if_pos outside, if_pos ⟨a.opened_eq_nil_iff.mpr outside.1, outside.2⟩]
      rfl
    · rw [if_neg outside, if_neg fun other => outside ⟨a.opened_eq_nil_iff.mp other.1, other.2⟩]
      exact congrArg some (nesting_addRaw a run).symm
  | _ => exact congrArg some (nesting_addRaw a _).symm

theorem run_nesting (a : Assembly) (ps : List Piece) : a.nesting.run ps = (a.addAll ps).toOption.map nesting := by
  induction ps generalizing a with
  | nil => rfl
  | cons p ps ih =>
    rw [Nesting.run, step_nesting, addAll]
    cases a.add p with
    | ok b => exact ih b
    | error fault => rfl

end Assembly

/-- A text is accepted exactly if its pieces lead from nothing to a root. -/
theorem Document.exists_parse_iff {s name : Text} :
    (∃ d, Document.parse s = .ok d ∧ d.root.name = name) ↔
      ∃ ps, Cut (splitMark (splitMark s).2).2 ps ∧ Nesting.run ⟨[], none⟩ ps = some ⟨[], some name⟩ := by
  have start (mark : Text) : Assembly.nesting ⟨[], if mark = [] then [] else [mark], none, []⟩ = ⟨[], none⟩ := rfl
  constructor
  · rintro ⟨d, parsed, rfl⟩
    obtain ⟨ps, cut, builds⟩ := Document.parse_eq_ok_iff.mp parsed
    obtain ⟨a, added, finished⟩ := Assembly.finish_addAll_iff.mpr builds
    obtain ⟨opened, root, -, -⟩ := Assembly.finish_eq_ok_iff.mp finished
    refine ⟨ps, cut, ?_⟩
    rw [← start, Assembly.run_nesting, added]
    simp [Except.toOption, Assembly.nesting, Assembly.names, opened, root]
  · rintro ⟨ps, cut, ran⟩
    rw [← start (splitMark s).1, Assembly.run_nesting, Option.map_eq_some_iff] at ran
    obtain ⟨a, added, state⟩ := ran
    have added : Assembly.addAll ⟨[], if (splitMark s).1 = [] then [] else [(splitMark s).1], none, []⟩ ps = .ok a := by
      cases result : Assembly.addAll ⟨[], if (splitMark s).1 = [] then [] else [(splitMark s).1], none, []⟩ ps with
      | error fault =>
        rw [result] at added
        cases added
      | ok b =>
        rw [result] at added
        rw [Option.some.inj added]
    obtain ⟨opened, prolog, root, epilog⟩ := a
    simp only [Assembly.nesting, Assembly.names, Nesting.mk.injEq, List.map_eq_nil_iff,
      Option.map_eq_some_iff] at state
    obtain ⟨rfl, e, rfl, named⟩ := state
    have builds := Assembly.finish_addAll_iff.mp ⟨_, added, rfl⟩
    exact ⟨_, Document.parse_eq_ok_iff.mpr ⟨ps, cut, builds⟩, named⟩

/-! ## Pieces that are read back -/

theorem readsBack_text_iff {run : Text} : (Piece.text run).ReadsBack ↔ run ≠ [] ∧ ∀ c ∈ run, endsRun c = false := by
  constructor
  · rintro ⟨c, s, rfl, read⟩
    have read := read [] fun _ => fun _ head => nomatch head
    have first : endsRun c = false := by simpa [Piece.isRun] using isRun_of_read read
    refine ⟨List.cons_ne_nil c s, fun d member => ?_⟩
    rw [read_text first, List.append_nil] at read
    have same := (Prod.mk.inj (Except.ok.inj read)).1
    simp only [Piece.text.injEq, List.cons.injEq, true_and] at same
    rcases List.mem_cons.mp member with rfl | member
    · exact first
    · rw [← same] at member
      simpa using List.mem_takeWhile_imp member
  · rintro ⟨nonempty, flat⟩
    obtain ⟨c, s, rfl⟩ := List.exists_cons_of_ne_nil nonempty
    have first := flat c List.mem_cons_self
    have read : Piece.read c s = .ok (.text (c :: s), []) := by
      have all : ∀ d ∈ s, (!endsRun d) = true := fun d member => by
        rw [flat d (List.mem_cons_of_mem c member)]
        rfl
      have whole : (s ++ []).takeWhile (!endsRun ·) = s := Text.takeWhile_append_of_stop all fun _ head => nomatch head
      have rest : (s ++ []).dropWhile (!endsRun ·) = [] := Text.dropWhile_append_of_stop all fun _ head => nomatch head
      rw [List.append_nil] at whole rest
      rw [read_text first, whole, rest]
    exact Piece.readsBack_of_read read

/-- A piece that is read back wherever no run of text goes on from it. -/
def Piece.Solid (p : Piece) : Prop :=
  match p with
  | text run => ∀ c ∈ run, endsRun c = false
  | p => p.ReadsBack

/-! ## Byte order marks -/

/-- What follows the byte order marks that are taken off. -/
def bodyOf (s : Text) : Text := (splitMark (splitMark s).2).2

theorem splitMark_of_ne {s : Text} (first : ∀ c ∈ s.head?, c ≠ byteOrderMark) : splitMark s = ([], s) := by
  cases s with
  | nil => rfl
  | cons c s => exact if_neg (first c rfl)

theorem splitMark_cons (s : Text) : splitMark (byteOrderMark :: s) = ([byteOrderMark], s) := by
  rw [splitMark, if_pos rfl]

theorem exists_cons_of_marked {s : Text} (marked : ¬ ∀ c ∈ s.head?, c ≠ byteOrderMark) :
    ∃ rest, s = byteOrderMark :: rest := by
  cases s with
  | nil => exact absurd (fun _ head => nomatch head) marked
  | cons c rest =>
    by_cases mark : c = byteOrderMark
    · exact ⟨rest, by rw [mark]⟩
    · exact absurd (fun d head => Option.some.inj head ▸ mark) marked

/-- Before the body stand two byte order marks at most. -/
theorem exists_marks (s : Text) : ∃ k ≤ 2, s = List.replicate k byteOrderMark ++ bodyOf s := by
  by_cases first : ∀ c ∈ s.head?, c ≠ byteOrderMark
  · refine ⟨0, by omega, ?_⟩
    rw [bodyOf, splitMark_of_ne first, splitMark_of_ne first]
    rfl
  · obtain ⟨body, rfl⟩ := exists_cons_of_marked first
    rw [bodyOf, splitMark_cons]
    by_cases second : ∀ c ∈ body.head?, c ≠ byteOrderMark
    · refine ⟨1, by omega, ?_⟩
      rw [splitMark_of_ne second]
      rfl
    · obtain ⟨rest, rfl⟩ := exists_cons_of_marked second
      refine ⟨2, by omega, ?_⟩
      rw [splitMark_cons]
      rfl

theorem bodyOf_marks {k : Nat} (few : k ≤ 2) {body : Text} (first : ∀ c ∈ body.head?, c ≠ byteOrderMark) :
    bodyOf (List.replicate k byteOrderMark ++ body) = body := by
  match k, few with
  | 0, _ =>
    rw [List.replicate_zero, List.nil_append, bodyOf, splitMark_of_ne first, splitMark_of_ne first]
  | 1, _ =>
    rw [List.replicate_one, List.singleton_append, bodyOf, splitMark_cons, splitMark_of_ne first]
  | 2, _ =>
    rw [bodyOf]
    simp only [List.replicate, List.cons_append, List.nil_append, splitMark_cons]

/-- What leads on from nothing does not begin with a byte order mark. -/
theorem head?_source_ne {ps : List Piece} {root : Option Text} {st : Nesting}
    (ran : Nesting.run ⟨[], root⟩ ps = some st) : ∀ c ∈ (ps.flatMap Piece.source).head?, c ≠ byteOrderMark := by
  induction ps with
  | nil => exact fun _ head => nomatch head
  | cons p ps ih =>
    intro c head same
    cases run : p.isRun with
    | true =>
      cases p with
      | text r =>
        rw [Nesting.run_cons_eq_some_iff] at ran
        obtain ⟨next, stepped, later⟩ := ran
        rw [Nesting.step] at stepped
        split at stepped
        · cases stepped
        · next blank =>
          obtain rfl := Option.some.inj stepped
          cases r with
          | nil => exact ih later c head same
          | cons d r =>
            obtain rfl := Option.some.inj head
            subst same
            simp [Text.isBlankText, show Text.isBlank byteOrderMark = false by decide] at blank
      | _ => cases run
    | false =>
      have ends := endsRuns_source run
      rw [List.flatMap_cons] at head
      cases source : p.source with
      | nil => cases p <;> cases source; cases run
      | cons d r =>
        rw [source] at head ends
        obtain rfl := Option.some.inj head
        exact absurd (ends d rfl) (by rw [same]; decide)

/-- Pieces that make a root are accepted, also after byte order marks. -/
theorem exists_parse_of_run {body : Text} {ps : List Piece} {name : Text} (cut : Cut body ps)
    (ran : Nesting.run ⟨[], none⟩ ps = some ⟨[], some name⟩) {k : Nat} (few : k ≤ 2) :
    bodyOf (List.replicate k byteOrderMark ++ body) = body ∧
      ∃ d, Document.parse (List.replicate k byteOrderMark ++ body) = .ok d := by
  have same : bodyOf (List.replicate k byteOrderMark ++ body) = body :=
    bodyOf_marks few (cut.source ▸ head?_source_ne ran)
  obtain ⟨d, parsed, -⟩ := Document.exists_parse_iff.mpr ⟨ps, same.symm ▸ cut, ran⟩
  exact ⟨same, d, parsed⟩

end SvgEdit
