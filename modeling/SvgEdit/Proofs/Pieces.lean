import SvgEdit.Markup.Assembly
import Mathlib

/-!
# Pieces read back

Whether a piece stands at the beginning of a text is decided by its own source: what follows it does
not matter, except that a run of text ends only where no run goes on. So a piece that was read once
is read again wherever its source stands.
-/
namespace SvgEdit

/-! ## First places -/

namespace Text

theorem takeWhile_append_of_stop {p : Char → Bool} {front back : Text} (all : ∀ c ∈ front, p c = true)
    (stop : ∀ c ∈ back.head?, p c = false) : (front ++ back).takeWhile p = front := by
  rw [List.takeWhile_append_of_pos all]
  cases back with
  | nil => simp
  | cons c back => simp [stop c rfl]

theorem dropWhile_append_of_stop {p : Char → Bool} {front back : Text} (all : ∀ c ∈ front, p c = true)
    (stop : ∀ c ∈ back.head?, p c = false) : (front ++ back).dropWhile p = back := by
  rw [List.dropWhile_append_of_pos all]
  cases back with
  | nil => rfl
  | cons c back => simp [stop c rfl]

theorem stops_dropWhile (p : Char → Bool) (s : Text) : ∀ c ∈ (s.dropWhile p).head?, p c = false := by
  intro c head
  obtain ⟨tail, same⟩ := List.head?_eq_some_iff.mp head
  have first := List.head_dropWhile_not p (l := s) (by rw [same]; exact List.cons_ne_nil _ _)
  simpa only [same, List.head_cons] using first

theorem dropWhileEnd_append_of_stop {p : Char → Bool} {front back : Text} (all : ∀ c ∈ back, p c = true)
    (stop : ∀ c ∈ front.getLast?, p c = false) : dropWhileEnd p (front ++ back) = front := by
  rw [dropWhileEnd, List.reverse_append, dropWhile_append_of_stop, List.reverse_reverse]
  · exact fun c member => all c (List.mem_reverse.mp member)
  · rwa [List.head?_reverse]

theorem dropWhileEnd_of_last {p : Char → Bool} {s : Text} (last : ∀ c ∈ s.getLast?, p c = false) :
    dropWhileEnd p s = s := by
  have trimmed := dropWhileEnd_append_of_stop (List.forall_mem_nil _) last
  rwa [List.append_nil] at trimmed

/-- Cutting finds the first place of the mark. -/
theorem cut?_eq_some_iff {mark s before rest : Text} (nonempty : mark ≠ []) :
    cut? mark s = some (before, rest) ↔
      s = before ++ mark ++ rest ∧ ∀ b r, s = b ++ mark ++ r → before.length ≤ b.length := by
  induction s generalizing before with
  | nil => simp [cut?, nonempty]
  | cons c s ih =>
    rw [cut?]
    split
    · next tail starts =>
      rw [dropPrefix?_eq_some_iff] at starts
      constructor
      · intro same
        obtain ⟨rfl, rfl⟩ := Prod.mk.inj (Option.some.inj same)
        exact ⟨starts, fun _ _ _ => Nat.zero_le _⟩
      · rintro ⟨whole, first⟩
        have empty : before = [] := List.length_eq_zero_iff.mp (Nat.le_zero.mp (first [] tail starts))
        subst empty
        rw [starts] at whole
        rw [List.append_cancel_left (show mark ++ tail = mark ++ rest from whole)]
    · next missing =>
      have later (b r : Text) (whole : c :: s = b ++ mark ++ r) : ∃ b', b = c :: b' ∧ s = b' ++ mark ++ r := by
        cases b with
        | nil =>
          rw [List.nil_append, ← dropPrefix?_eq_some_iff, missing] at whole
          cases whole
        | cons d b' =>
          obtain ⟨rfl, tail⟩ := List.cons.inj whole
          exact ⟨b', rfl, tail⟩
      rw [Option.map_eq_some_iff]
      constructor
      · rintro ⟨⟨b, r⟩, inner, same⟩
        obtain ⟨rfl, rfl⟩ := Prod.mk.inj same
        obtain ⟨rfl, first⟩ := ih.mp inner
        refine ⟨rfl, fun b' r' whole => ?_⟩
        obtain ⟨b'', rfl, tail⟩ := later b' r' whole
        exact Nat.succ_le_succ (first b'' r' tail)
      · rintro ⟨whole, first⟩
        obtain ⟨b, rfl, tail⟩ := later before rest whole
        refine ⟨(b, rest), ih.mpr ⟨tail, fun b' r' other => ?_⟩, rfl⟩
        exact Nat.le_of_succ_le_succ (first (c :: b') r' (by rw [other]; rfl))

theorem cut?_append {mark s before rest : Text} (nonempty : mark ≠ []) (found : cut? mark s = some (before, rest))
    (rest' : Text) : cut? mark (before ++ mark ++ rest') = some (before, rest') := by
  obtain ⟨rfl, first⟩ := (cut?_eq_some_iff nonempty).mp found
  refine (cut?_eq_some_iff nonempty).mpr ⟨rfl, fun b r whole => ?_⟩
  by_contra earlier
  have inside : b ++ mark <+: before ++ mark := by
    apply List.prefix_of_prefix_length_le ⟨r, whole.symm⟩ ⟨rest', rfl⟩
    simp only [List.length_append]
    omega
  obtain ⟨more, same⟩ := inside
  exact earlier (first b (more ++ rest) (by rw [← same, List.append_assoc]))

end Text

/-! ## Tags and declarations -/

theorem cutTag_append {quote : Option Char} {s inside rest : Text} (h : cutTag quote s = some (inside, rest))
    (rest' : Text) : cutTag quote (inside ++ '>' :: rest') = some (inside, rest') := by
  induction s generalizing quote inside with
  | nil => simp [cutTag] at h
  | cons c s ih =>
    rw [cutTag] at h
    split at h
    · next close =>
      obtain ⟨rfl, rfl⟩ := Prod.mk.inj (Option.some.inj h)
      rw [List.nil_append, cutTag, if_pos ⟨close.1, rfl⟩]
    · next going =>
      obtain ⟨⟨i, r⟩, inner, same⟩ := Option.map_eq_some_iff.mp h
      obtain ⟨rfl, rfl⟩ := Prod.mk.inj same
      rw [List.cons_append, cutTag, if_neg going, ih inner]
      rfl

theorem cutDeclaration_append {depth : Nat} {s inside rest : Text}
    (h : cutDeclaration depth s = some (inside, rest)) (rest' : Text) :
    cutDeclaration depth (inside ++ '>' :: rest') = some (inside, rest') := by
  induction s generalizing depth inside with
  | nil => simp [cutDeclaration] at h
  | cons c s ih =>
    rw [cutDeclaration] at h
    split at h
    · next close =>
      obtain ⟨rfl, rfl⟩ := Prod.mk.inj (Option.some.inj h)
      rw [List.nil_append, cutDeclaration, if_pos ⟨close.1, rfl⟩]
    · next going =>
      obtain ⟨⟨i, r⟩, inner, same⟩ := Option.map_eq_some_iff.mp h
      obtain ⟨rfl, rfl⟩ := Prod.mk.inj same
      rw [List.cons_append, cutDeclaration, if_neg going, ih inner]
      rfl

/-- Nothing opens or closes in a text without angle brackets. -/
theorem cutDeclaration_of_flat {front : Text} (flat : ∀ c ∈ front, c ≠ '<' ∧ c ≠ '>') {depth : Nat}
    {s inside rest : Text} :
    cutDeclaration depth (front ++ s) = some (front ++ inside, rest) ↔
      cutDeclaration depth s = some (inside, rest) := by
  induction front with
  | nil => rfl
  | cons c front ih =>
    obtain ⟨notLess, notGreater⟩ := flat c List.mem_cons_self
    rw [← ih fun d member => flat d (List.mem_cons_of_mem c member), List.cons_append, cutDeclaration,
      if_neg (fun close => notGreater close.2), if_neg notLess, if_neg notGreater]
    cases cutDeclaration depth (front ++ s) <;> simp [Prod.ext_iff]

theorem flat_of_isDoctypeKeyword {keyword : Text} (doctype : isDoctypeKeyword keyword = true) :
    ∀ c ∈ keyword, c ≠ '<' ∧ c ≠ '>' := by
  rw [isDoctypeKeyword, decide_eq_true_eq] at doctype
  intro c member
  have lower := List.mem_map_of_mem (f := Char.toLower) member
  rw [doctype] at lower
  constructor <;> (rintro rfl; revert lower; decide)

theorem length_of_isDoctypeKeyword {keyword : Text} (doctype : isDoctypeKeyword keyword = true) :
    keyword.length = 7 := by
  rw [isDoctypeKeyword, decide_eq_true_eq] at doctype
  have := congrArg List.length doctype
  rwa [List.length_map] at this

/-! ## Pieces -/

/-- No run of text goes on into the text. -/
def EndsRuns (rest : Text) : Prop := ∀ c ∈ rest.head?, endsRun c = true

namespace Piece

def isRun : Piece → Bool
  | text _ => true
  | _ => false

def isTag : Piece → Bool
  | startTag _ | emptyTag _ | endTag _ => true
  | _ => false

/-- The piece is taken off whatever text begins with its source. -/
def ReadsBack (p : Piece) : Prop :=
  ∃ c s, p.source = c :: s ∧ ∀ rest, (p.isRun = true → EndsRuns rest) → Piece.read c (s ++ rest) = .ok (p, rest)

end Piece

theorem readDeclaration_doctype {keyword content rest : Text} (doctype : isDoctypeKeyword keyword = true)
    (named : content.all isSpace = false) (first : ∀ c ∈ keyword.head?, c = 'D' ∨ c = 'd')
    (cut : cutDeclaration 0 (keyword ++ content ++ '>' :: rest) = some (keyword ++ content, rest)) :
    readDeclaration (keyword ++ content ++ '>' :: rest) = .ok (.doctype keyword content, rest) := by
  have long := length_of_isDoctypeKeyword doctype
  have front : (keyword ++ content).take 7 = keyword := by rw [← long, List.take_left]
  have back : (keyword ++ content).drop 7 = content := by rw [← long, List.drop_left]
  cases keyword with
  | nil => cases long
  | cons c keyword =>
    simp only [List.cons_append] at cut front back ⊢
    rcases first c rfl with rfl | rfl <;>
      simp only [readDeclaration, cut, front, back, doctype, named, if_true] <;> rfl

/-- What reading a declaration says about it. -/
theorem readDeclaration_eq_ok_iff {s rest : Text} {p : Piece} : readDeclaration s = .ok (p, rest) ↔
    (∃ body t, p = .comment body ∧ s = '-' :: '-' :: t ∧ Text.cut? ['-', '-', '>'] t = some (body, rest)) ∨
    (∃ body t, p = .characterData body ∧ s = "[CDATA[".toList ++ t ∧ Text.cut? [']', ']', '>'] t = some (body, rest)) ∨
    ∃ keyword content, p = .doctype keyword content ∧ isDoctypeKeyword keyword = true ∧
      (∀ c ∈ keyword.head?, c = 'D' ∨ c = 'd') ∧ content.all isSpace = false ∧
      cutDeclaration 0 s = some (keyword ++ content, rest) := by
  constructor
  · intro h
    unfold readDeclaration at h
    split at h
    · split at h
      · split at h
        · next t _ body rest cut =>
          obtain ⟨rfl, rfl⟩ := Prod.mk.inj (Except.ok.inj h)
          exact .inl ⟨body, t, rfl, rfl, cut⟩
        · cases h
      · cases h
    · split at h
      · next t starts =>
        obtain rfl := Text.dropPrefix?_eq_some_iff.mp starts
        split at h
        · next body rest cut =>
          obtain ⟨rfl, rfl⟩ := Prod.mk.inj (Except.ok.inj h)
          exact .inr (.inl ⟨body, t, rfl, rfl, cut⟩)
        · cases h
      · cases h
    · next c tail _ _ =>
      split at h
      · next named =>
        split at h
        · next inside rest cut =>
          split at h
          · next doctype =>
            split at h
            · cases h
            · next content =>
              obtain ⟨rfl, rfl⟩ := Prod.mk.inj (Except.ok.inj h)
              refine .inr (.inr ⟨_, _, rfl, doctype, fun d head => ?_, by simpa using content, ?_⟩)
              · have whole : c :: tail = inside ++ '>' :: rest := eq_append_of_cutDeclaration cut
                cases inside with
                | nil => cases head
                | cons e inside =>
                  obtain ⟨rfl, -⟩ := List.cons.inj whole
                  exact Option.some.inj head ▸ named
              · rwa [List.take_append_drop]
          · cases h
        · cases h
      · cases h
    · cases h
  · rintro (⟨body, t, rfl, rfl, cut⟩ | ⟨body, t, rfl, rfl, cut⟩ | ⟨keyword, content, rfl, doctype, first, named, cut⟩)
    · simp only [readDeclaration, cut]
    · simp [readDeclaration, Text.dropPrefix?, cut]
    · obtain rfl := eq_append_of_cutDeclaration cut
      exact readDeclaration_doctype doctype named first cut

theorem readDeclaration_append {s rest : Text} {p : Piece} (h : readDeclaration s = .ok (p, rest)) :
    ∃ t, p.source = '<' :: '!' :: t ∧ p.isRun = false ∧ p.isTag = false ∧
      ∀ rest', readDeclaration (t ++ rest') = .ok (p, rest') := by
  rcases readDeclaration_eq_ok_iff.mp h with ⟨body, t, rfl, rfl, cut⟩ | ⟨body, t, rfl, rfl, cut⟩ |
    ⟨keyword, content, rfl, doctype, first, named, cut⟩
  · refine ⟨_, rfl, rfl, rfl, fun rest' => readDeclaration_eq_ok_iff.mpr (.inl ⟨body, _, rfl, rfl, ?_⟩)⟩
    exact Text.cut?_append (List.cons_ne_nil _ _) cut rest'
  · refine ⟨_, rfl, rfl, rfl, fun rest' => readDeclaration_eq_ok_iff.mpr (.inr (.inl ⟨body, _, rfl, rfl, ?_⟩))⟩
    exact Text.cut?_append (List.cons_ne_nil _ _) cut rest'
  · refine ⟨_, rfl, rfl, rfl, fun rest' => readDeclaration_eq_ok_iff.mpr (.inr (.inr
      ⟨keyword, content, rfl, doctype, first, named, ?_⟩))⟩
    rw [List.append_assoc]
    exact cutDeclaration_append cut rest'

theorem all_dropWhile (p : Char → Bool) (s : Text) : (s.dropWhile p).all p = s.all p := by
  have whole := congrArg (List.all · p) (List.takeWhile_append_dropWhile (p := p) (l := s))
  rwa [List.all_append, List.all_takeWhile, Bool.true_and] at whole

theorem readInstruction_eq_ok_iff {s rest : Text} {p : Piece} : readInstruction s = .ok (p, rest) ↔
    s.head? ≠ some '>' ∧ ∃ body, p = .instruction body ∧ Text.cut? ['?', '>'] s = some (body, rest) := by
  rw [readInstruction]
  by_cases first : s.head? = some '>'
  · simp [first]
  · cases cut : Text.cut? ['?', '>'] s with
    | none => simp [first]
    | some found => simp [first, Prod.ext_iff, eq_comm]

theorem readInstruction_append {s rest : Text} {p : Piece} (h : readInstruction s = .ok (p, rest)) :
    ∃ t, p.source = '<' :: '?' :: t ∧ p.isRun = false ∧ p.isTag = false ∧
      ∀ rest', readInstruction (t ++ rest') = .ok (p, rest') := by
  obtain ⟨first, body, rfl, cut⟩ := readInstruction_eq_ok_iff.mp h
  refine ⟨_, rfl, rfl, rfl, fun rest' => readInstruction_eq_ok_iff.mpr ⟨?_, body, rfl, ?_⟩⟩
  · rw [Text.eq_append_of_cut? cut] at first
    cases body with
    | nil => simp
    | cons c body => exact first
  · exact Text.cut?_append (List.cons_ne_nil _ _) cut rest'

theorem readReference_append {s rest : Text} {p : Piece} (h : readReference s = .ok (p, rest)) :
    ∃ t, p.source = '&' :: t ∧ p.isRun = false ∧ ∀ rest', readReference (t ++ rest') = .ok (p, rest') := by
  unfold readReference at h
  split at h
  · simp only [Except.ok.injEq, Prod.mk.injEq] at h
    obtain ⟨rfl, rfl⟩ := h
    refine ⟨_, rfl, rfl, fun rest' => ?_⟩
    have inside : ∀ c ∈ s.takeWhile fun c => decide (c ≠ ';' ∧ c ≠ '&' ∧ c ≠ '<'),
        (fun c => decide (c ≠ ';' ∧ c ≠ '&' ∧ c ≠ '<')) c = true := fun c member =>
      List.mem_takeWhile_imp (p := fun c => decide (c ≠ ';' ∧ c ≠ '&' ∧ c ≠ '<')) member
    have stop : ∀ c ∈ (';' :: rest').head?, (fun c => decide (c ≠ ';' ∧ c ≠ '&' ∧ c ≠ '<')) c = false := by
      rintro c head
      obtain rfl := Option.some.inj head
      rfl
    rw [List.append_assoc, readReference, List.singleton_append, Text.dropWhile_append_of_stop inside stop,
      Text.takeWhile_append_of_stop inside stop]
    rfl
  · cases h

/-- The inside of a tag begins like that of no other markup. -/
def BeginsTag (inside : Text) : Prop := ∀ c ∈ inside.head?, c ≠ '/' ∧ c ≠ '!' ∧ c ≠ '?'

instance (inside : Text) : Decidable (BeginsTag inside) := inferInstanceAs (Decidable (∀ c ∈ inside.head?, _))

theorem read_startTag {inside rest : Text} (begins : BeginsTag inside) (last : inside.getLast? ≠ some '/')
    (cut : cutTag none (inside ++ '>' :: rest) = some (inside, rest)) :
    Piece.read '<' (inside ++ '>' :: rest) = .ok (.startTag inside, rest) := by
  have first : ∀ c ∈ (inside ++ '>' :: rest).head?, c ≠ '/' ∧ c ≠ '!' ∧ c ≠ '?' := by
    cases inside with
    | nil => simp
    | cons d inside => exact begins
  unfold Piece.read
  rw [if_neg (by decide), if_pos rfl]
  split
  · next same => exact absurd rfl (first '!' (by rw [same]; rfl)).2.1
  · next same => exact absurd rfl (first '?' (by rw [same]; rfl)).2.2
  · unfold readTag
    split
    · next same => exact absurd rfl (first '/' (by rw [same]; rfl)).1
    · rw [cut]
      exact if_neg last

theorem read_emptyTag {inside rest : Text} (nonempty : inside ≠ []) (begins : BeginsTag inside)
    (cut : cutTag none (inside ++ '/' :: '>' :: rest) = some (inside ++ ['/'], rest)) :
    Piece.read '<' (inside ++ '/' :: '>' :: rest) = .ok (.emptyTag inside, rest) := by
  have first : ∀ c ∈ (inside ++ '/' :: '>' :: rest).head?, c ≠ '/' ∧ c ≠ '!' ∧ c ≠ '?' := by
    cases inside with
    | nil => exact absurd rfl nonempty
    | cons d inside => exact begins
  unfold Piece.read
  rw [if_neg (by decide), if_pos rfl]
  split
  · next same => exact absurd rfl (first '!' (by rw [same]; rfl)).2.1
  · next same => exact absurd rfl (first '?' (by rw [same]; rfl)).2.2
  · unfold readTag
    split
    · next same => exact absurd rfl (first '/' (by rw [same]; rfl)).1
    · rw [cut]
      simp

theorem read_endTag {inside rest : Text} (cut : cutTag none (inside ++ '>' :: rest) = some (inside, rest)) :
    Piece.read '<' ('/' :: (inside ++ '>' :: rest)) = .ok (.endTag inside, rest) := by
  simp [Piece.read, readTag, cut]

/-- What reading a tag says about its inside. -/
theorem readTag_cases {s rest : Text} {p : Piece} (h : readTag s = .ok (p, rest)) :
    (∃ inside, p = .endTag inside ∧ ∃ tail, s = '/' :: tail ∧ cutTag none tail = some (inside, rest)) ∨
      (∃ inside, p = .emptyTag inside ∧ inside ≠ [] ∧ (∀ c ∈ s.head?, c ≠ '/') ∧
        cutTag none s = some (inside ++ ['/'], rest)) ∨
      ∃ inside, p = .startTag inside ∧ inside.getLast? ≠ some '/' ∧ (∀ c ∈ s.head?, c ≠ '/') ∧
        cutTag none s = some (inside, rest) := by
  unfold readTag at h
  split at h
  · next tail =>
    split at h
    · next inside rest cut =>
      simp only [Except.ok.injEq, Prod.mk.injEq] at h
      obtain ⟨rfl, rfl⟩ := h
      exact .inl ⟨inside, rfl, tail, rfl, cut⟩
    · cases h
  · next begins =>
    have first : ∀ c ∈ s.head?, c ≠ '/' := by
      rintro c head rfl
      obtain ⟨tail, rfl⟩ := List.head?_eq_some_iff.mp head
      exact begins tail rfl
    split at h
    · next inside rest cut =>
      split at h
      · next slash =>
        simp only [Except.ok.injEq, Prod.mk.injEq] at h
        obtain ⟨rfl, rfl⟩ := h
        obtain ⟨front, rfl⟩ := List.getLast?_eq_some_iff.mp slash
        rw [List.dropLast_concat]
        refine .inr (.inl ⟨front, rfl, ?_, first, cut⟩)
        rintro rfl
        rw [eq_append_of_cutTag cut] at first
        exact first '/' rfl rfl
      · next noSlash =>
        simp only [Except.ok.injEq, Prod.mk.injEq] at h
        obtain ⟨rfl, rfl⟩ := h
        exact .inr (.inr ⟨inside, rfl, noSlash, first, cut⟩)
    · cases h

/-- How `Piece.read` goes on after `<`. -/
theorem read_less_cases {s rest : Text} {p : Piece} (h : Piece.read '<' s = .ok (p, rest)) :
    (∃ t, s = '!' :: t ∧ readDeclaration t = .ok (p, rest)) ∨
      (∃ t, s = '?' :: t ∧ readInstruction t = .ok (p, rest)) ∨
      (∀ c ∈ s.head?, c ≠ '!' ∧ c ≠ '?') ∧ readTag s = .ok (p, rest) := by
  unfold Piece.read at h
  rw [if_neg (by decide), if_pos rfl] at h
  split at h
  · exact .inl ⟨_, rfl, h⟩
  · exact .inr (.inl ⟨_, rfl, h⟩)
  · next noDeclaration noInstruction =>
    refine .inr (.inr ⟨fun c head => ?_, h⟩)
    obtain ⟨tail, rfl⟩ := List.head?_eq_some_iff.mp head
    exact ⟨fun same => noDeclaration tail (by rw [same]), fun same => noInstruction tail (by rw [same])⟩

/-- How `Piece.read` goes on. -/
theorem read_cases {c : Char} {s rest : Text} {p : Piece} (h : Piece.read c s = .ok (p, rest)) :
    (c = '&' ∧ readReference s = .ok (p, rest)) ∨ (c = '<' ∧ Piece.read '<' s = .ok (p, rest)) ∨
      (endsRun c = false ∧ p = .text (c :: s.takeWhile (!endsRun ·)) ∧ rest = s.dropWhile (!endsRun ·)) := by
  by_cases ampersand : c = '&'
  · subst ampersand
    exact .inl ⟨rfl, h⟩
  by_cases less : c = '<'
  · subst less
    exact .inr (.inl ⟨rfl, h⟩)
  unfold Piece.read at h
  rw [if_neg ampersand, if_neg less] at h
  obtain ⟨rfl, rfl⟩ := Prod.mk.inj (Except.ok.inj h)
  exact .inr (.inr ⟨by simp [endsRun, ampersand, less], rfl, rfl⟩)

theorem read_text {c : Char} (going : endsRun c = false) (s : Text) :
    Piece.read c s = .ok (.text (c :: s.takeWhile (!endsRun ·)), s.dropWhile (!endsRun ·)) := by
  simp only [endsRun, Bool.or_eq_false_iff, decide_eq_false_iff_not] at going
  unfold Piece.read
  rw [if_neg going.2, if_neg going.1]

/-- The inside of a tag that was read begins like that of no other markup. -/
theorem beginsTag_of_cutTag {s inside front rest : Text} (cut : cutTag none s = some (inside, rest))
    (starts : front <+: inside) (first : ∀ c ∈ s.head?, c ≠ '/') (other : ∀ c ∈ s.head?, c ≠ '!' ∧ c ≠ '?') :
    BeginsTag front := by
  intro c head
  obtain ⟨tail, rfl⟩ := List.head?_eq_some_iff.mp head
  obtain ⟨more, rfl⟩ := starts
  have whole := eq_append_of_cutTag cut
  have same : c ∈ s.head? := by rw [whole]; rfl
  exact ⟨first c same, other c same⟩

/-- A piece is a run of text unless it begins like markup. -/
theorem isRun_of_read {c : Char} {s rest : Text} {p : Piece} (h : Piece.read c s = .ok (p, rest)) :
    p.isRun = !endsRun c := by
  rcases read_cases h with ⟨rfl, reference⟩ | ⟨rfl, markup⟩ | ⟨going, rfl, -⟩
  · obtain ⟨-, -, markup, -⟩ := readReference_append reference
    exact markup
  · rcases read_less_cases markup with ⟨t, rfl, declaration⟩ | ⟨t, rfl, instruction⟩ | ⟨-, tag⟩
    · obtain ⟨-, -, markup, -⟩ := readDeclaration_append declaration
      exact markup
    · obtain ⟨-, -, markup, -⟩ := readInstruction_append instruction
      exact markup
    · rcases readTag_cases tag with ⟨_, rfl, -⟩ | ⟨_, rfl, -⟩ | ⟨_, rfl, -⟩ <;> rfl
  · rw [going]
    rfl

/-- The inside of a start or empty tag that is read begins like that of no other markup. -/
theorem beginsTag_of_read {s inside rest : Text} {p : Piece} (h : Piece.read '<' s = .ok (p, rest))
    (tag : p = .startTag inside ∨ p = .emptyTag inside) : BeginsTag inside := by
  rcases read_less_cases h with ⟨t, rfl, declaration⟩ | ⟨t, rfl, instruction⟩ | ⟨other, tag'⟩
  · obtain ⟨-, -, -, noTag, -⟩ := readDeclaration_append declaration
    rcases tag with rfl | rfl <;> cases noTag
  · obtain ⟨-, -, -, noTag, -⟩ := readInstruction_append instruction
    rcases tag with rfl | rfl <;> cases noTag
  · rcases readTag_cases tag' with ⟨inside', rfl, -⟩ | ⟨inside', rfl, nonempty, first, cut⟩ |
      ⟨inside', rfl, last, first, cut⟩
    · rcases tag with tag | tag <;> cases tag
    · obtain rfl : inside' = inside := by
        rcases tag with tag | tag
        · cases tag
        · exact Piece.emptyTag.inj tag
      exact beginsTag_of_cutTag cut ⟨['/'], rfl⟩ first other
    · obtain rfl : inside' = inside := by
        rcases tag with tag | tag
        · exact Piece.startTag.inj tag
        · cases tag
      exact beginsTag_of_cutTag cut (List.prefix_refl _) first other

namespace Piece

/-- Reading a piece again does not depend on what stands after it. -/
theorem readsBack_of_read {c : Char} {s rest : Text} {p : Piece} (h : Piece.read c s = .ok (p, rest)) :
    p.ReadsBack := by
  rcases read_cases h with ⟨rfl, reference⟩ | ⟨rfl, markup⟩ | ⟨going, rfl, -⟩
  · obtain ⟨t, source, -, again⟩ := readReference_append reference
    exact ⟨'&', t, source, fun rest' _ => again rest'⟩
  · rcases read_less_cases markup with ⟨t, rfl, declaration⟩ | ⟨t, rfl, instruction⟩ | ⟨other, tag⟩
    · obtain ⟨t', source, -, -, again⟩ := readDeclaration_append declaration
      refine ⟨'<', '!' :: t', source, fun rest' _ => ?_⟩
      rw [← again rest']
      rfl
    · obtain ⟨t', source, -, -, again⟩ := readInstruction_append instruction
      refine ⟨'<', '?' :: t', source, fun rest' _ => ?_⟩
      rw [← again rest']
      rfl
    · rcases readTag_cases tag with ⟨inside, rfl, tail, rfl, cut⟩ | ⟨inside, rfl, nonempty, first, cut⟩ |
        ⟨inside, rfl, last, first, cut⟩
      · refine ⟨'<', _, rfl, fun rest' _ => ?_⟩
        rw [List.cons_append, List.append_assoc]
        exact read_endTag (cutTag_append cut rest')
      · refine ⟨'<', _, rfl, fun rest' _ => ?_⟩
        have again := cutTag_append cut rest'
        rw [List.append_assoc] at again ⊢
        exact read_emptyTag nonempty (beginsTag_of_cutTag cut ⟨['/'], rfl⟩ first other) again
      · refine ⟨'<', _, rfl, fun rest' _ => ?_⟩
        rw [List.append_assoc]
        exact read_startTag (beginsTag_of_cutTag cut (List.prefix_refl _) first other) last (cutTag_append cut rest')
  · refine ⟨c, s.takeWhile (!endsRun ·), rfl, fun rest' ends => ?_⟩
    have inside : ∀ d ∈ s.takeWhile (!endsRun ·), (!endsRun d) = true := fun d member =>
      List.mem_takeWhile_imp (p := (!endsRun ·)) member
    have stop : ∀ d ∈ rest'.head?, (!endsRun d) = false := by
      intro d head
      rw [ends rfl d head]
      rfl
    rw [read_text going, Text.takeWhile_append_of_stop inside stop, Text.dropWhile_append_of_stop inside stop]

/-- The piece as it is kept: the keyword of a document type in capitals, one blank after it. -/
def settled : Piece → Piece
  | doctype _ content => doctype ['D', 'O', 'C', 'T', 'Y', 'P', 'E'] (' ' :: content.dropWhile isSpace)
  | p => p

theorem source_settled (p : Piece) : p.settled.source = p.kept := by
  cases p <;> simp [settled, kept, source]

theorem kept_settled (p : Piece) : p.settled.kept = p.kept := by
  cases p with
  | doctype keyword content =>
    have blank : isSpace ' ' = true := rfl
    simp only [settled, kept, List.dropWhile_cons, blank, if_true, List.dropWhile_idempotent]
  | _ => rfl

theorem isRun_settled (p : Piece) : p.settled.isRun = p.isRun := by
  cases p <;> rfl

/-- What is kept of a piece is read as the settled piece. -/
theorem readsBack_settled {p : Piece} (h : p.ReadsBack) : p.settled.ReadsBack := by
  cases p with
  | doctype keyword content =>
    obtain ⟨c, s, source, again⟩ := h
    obtain ⟨rfl, rfl⟩ := List.cons.inj source
    rcases read_less_cases (again [] fun run => nomatch run) with ⟨t, same, declaration⟩ | ⟨t, same, -⟩ | ⟨other, -⟩
    · obtain ⟨-, rfl⟩ := List.cons.inj same
      obtain ⟨doctype, named, cut⟩ : isDoctypeKeyword keyword = true ∧ content.all isSpace = false ∧
          cutDeclaration 0 (keyword ++ content ++ ['>'] ++ []) = some (keyword ++ content, []) := by
        rcases readDeclaration_eq_ok_iff.mp declaration with ⟨_, _, other, -⟩ | ⟨_, _, other, -⟩ |
          ⟨keyword', content', same, doctype, -, named, cut⟩
        · cases other
        · cases other
        · obtain ⟨rfl, rfl⟩ := Piece.doctype.inj same
          exact ⟨doctype, named, cut⟩
      have blanks : ∀ c ∈ content.takeWhile isSpace, c ≠ '<' ∧ c ≠ '>' := by
        intro c member
        have blank := List.mem_takeWhile_imp member
        constructor <;> (rintro rfl; exact absurd blank (by decide))
      have whole : content = content.takeWhile isSpace ++ content.dropWhile isSpace :=
        List.takeWhile_append_dropWhile.symm
      have inner : cutDeclaration 0 (content.dropWhile isSpace ++ ['>']) = some (content.dropWhile isSpace, []) := by
        rw [← cutDeclaration_of_flat blanks, ← List.append_assoc, ← whole,
          ← cutDeclaration_of_flat (flat_of_isDoctypeKeyword doctype), ← List.append_assoc]
        rwa [← List.append_nil ((keyword ++ content) ++ ['>'])]
      refine ⟨'<', _, rfl, fun rest _ => ?_⟩
      have capitals : ∀ c ∈ "DOCTYPE ".toList, c ≠ '<' ∧ c ≠ '>' := by decide
      have settled := (cutDeclaration_of_flat capitals).mpr (cutDeclaration_append inner rest)
      have named' : (' ' :: content.dropWhile isSpace).all isSpace = false := by
        rw [List.all_cons, all_dropWhile, named, Bool.and_false]
      have capital : isDoctypeKeyword "DOCTYPE".toList = true := by decide
      have read := readDeclaration_doctype capital named' (by decide) settled
      rw [List.append_assoc] at read
      rw [List.cons_append, List.append_assoc]
      exact read
    · cases same
    · exact absurd rfl (other '!' rfl).1
  | _ => exact h

end Piece
end SvgEdit
