import SvgEdit.Shrink.Groups
import SvgEdit.Proofs.Sweeping

/-!
# Empty groups removed

A group is taken out whole: what is recognised after its start tag is its own end tag. Taking out groups
again and again leaves content with the same root.
-/
namespace SvgEdit

def groupName : Text := ['g']

namespace Shrink

/-! ## Past the attributes -/

theorem afterAttributes_unmarked {u : Text} (unmarked : ∀ c ∈ u, c ≠ '>' ∧ c ≠ '/' ∧ c ≠ '"' ∧ c ≠ '\'') (s : Text) :
    afterAttributes none (u ++ s) = afterAttributes none s := by
  induction u with
  | nil => rfl
  | cons c u ih =>
    obtain ⟨noGreater, noSlash, noDouble, noSingle⟩ := unmarked c List.mem_cons_self
    rw [List.cons_append, afterAttributes]
    simp only [noGreater, noSlash, noDouble, noSingle, or_self, if_false]
    exact ih fun d member => unmarked d (List.mem_cons_of_mem c member)

theorem afterAttributes_quoted {q : Char} {raw : Text} (closed : q ∉ raw) (s : Text) :
    afterAttributes (some q) (raw ++ q :: s) = afterAttributes none s := by
  induction raw with
  | nil => rw [List.nil_append, afterAttributes, if_pos rfl]
  | cons c raw ih =>
    rw [List.mem_cons, not_or] at closed
    rw [List.cons_append, afterAttributes, if_neg (Ne.symm closed.1), ih closed.2]

theorem afterAttributes_spaces {u : Text} (blank : Spaces u) (s : Text) :
    afterAttributes none (u ++ s) = afterAttributes none s := by
  refine afterAttributes_unmarked (fun c member => ?_) s
  have space := blank c member
  refine ⟨?_, ?_, ?_, ?_⟩ <;> (rintro rfl; cases space)

theorem afterAttributes_source {a : SpelledAttribute} (proper : a.Proper) (s : Text) :
    afterAttributes none (a.source ++ s) = afterAttributes none s := by
  have key : ∀ c ∈ a.key, c ≠ '>' ∧ c ≠ '/' ∧ c ≠ '"' ∧ c ≠ '\'' := by
    intro c member
    obtain ⟨-, noSlash, -, -, noGreater, noDouble, noSingle⟩ := isPlainChar_iff.mp (proper.key.2 c member)
    exact ⟨noGreater, noSlash, noDouble, noSingle⟩
  have equals (u : Text) : afterAttributes none ('=' :: u) = afterAttributes none u :=
    afterAttributes_unmarked (u := ['=']) (by decide) u
  have quoted : afterAttributes none (a.quote.char :: (a.raw ++ a.quote.char :: s)) = afterAttributes none s := by
    have member : a.quote.char ∈ a.raw ++ a.quote.char :: s := List.mem_append_right _ List.mem_cons_self
    have opens : afterAttributes none (a.quote.char :: (a.raw ++ a.quote.char :: s)) =
        afterAttributes (some a.quote.char) (a.raw ++ a.quote.char :: s) := by
      rw [afterAttributes]
      cases kind : a.quote <;> rw [kind] at member <;> simp [QuoteMark.char] at member ⊢
    rw [opens, afterAttributes_quoted proper.closed]
  have whole : a.source ++ s = a.before ++ (a.key ++ (a.between ++ '=' :: (a.after ++ a.quote.char ::
      (a.raw ++ a.quote.char :: s)))) := by simp [SpelledAttribute.source]
  rw [whole, afterAttributes_spaces proper.before, afterAttributes_unmarked key, afterAttributes_spaces proper.between,
    equals, afterAttributes_spaces proper.after, quoted]

theorem afterAttributes_middle {t : SpelledTag} (proper : t.Proper) (s : Text) :
    afterAttributes none (t.middle ++ t.blanks ++ s) = afterAttributes none s := by
  have middle (u : Text) : afterAttributes none (t.middle ++ u) = afterAttributes none u := by
    have all := proper.attributes
    rw [SpelledTag.middle]
    generalize t.attributes = attributes at all
    induction attributes with
    | nil => rfl
    | cons a as ih =>
      rw [List.flatMap_cons, List.append_assoc, afterAttributes_source (all a List.mem_cons_self)]
      exact ih fun b member => all b (List.mem_cons_of_mem a member)
  rw [List.append_assoc, middle, afterAttributes_spaces proper.blanks]

/-! ## What is recognised -/

/-- After the start of a group the end is looked for right behind the attributes. -/
theorem afterEmptyGroup?_of_named {t : SpelledTag} (proper : t.Proper) (named : t.name = groupName) {close : Char}
    (ends : close = '>' ∨ close = '/') (s : Text) :
    afterEmptyGroup? ('<' :: (t.inside ++ close :: s)) = afterGroupEnd? (close :: s) := by
  have past := afterAttributes_middle proper (close :: s)
  have stop : afterAttributes none (close :: s) = close :: s := by
    rcases ends with rfl | rfl <;> rfl
  have first := proper.head?_rest
  rw [SpelledTag.inside, named]
  cases rest : t.middle ++ t.blanks with
  | nil =>
    have noBlank : ¬ Text.isBlank close = true := by rcases ends with rfl | rfl <;> decide
    exact if_neg noBlank
  | cons d u =>
    rw [rest] at past first
    have space := first d rfl
    have skip : afterAttributes none (d :: u ++ close :: s) = afterAttributes none (u ++ close :: s) :=
      afterAttributes_spaces (u := [d]) (fun c member => List.mem_singleton.mp member ▸ space) _
    rw [stop, skip] at past
    have blank : Text.isBlank d = true := Text.isBlank_of_isSpace space
    have opened : afterEmptyGroup? ('<' :: (groupName ++ d :: u ++ close :: s)) =
        afterGroupEnd? (afterAttributes none (u ++ close :: s)) := if_pos blank
    rw [opened, past]

theorem afterEmptyGroup?_of_longer {c : Char} (noBlank : Text.isBlank c = false) (noSlash : c ≠ '/') (noGreater : c ≠ '>')
    (s : Text) : afterEmptyGroup? ('<' :: 'g' :: c :: s) = none := by
  simp [afterEmptyGroup?, afterGroupEnd?, noBlank, noSlash, noGreater]

theorem afterEmptyGroup?_of_ne {name : Text} (plain : Plain name) (noBlank : ∀ c ∈ name, Text.isBlank c = false)
    (other : name ≠ groupName) (s : Text) : afterEmptyGroup? ('<' :: (name ++ s)) = none := by
  obtain ⟨c, name, rfl⟩ := List.exists_cons_of_ne_nil plain.1
  by_cases first : c = 'g'
  · subst first
    cases name with
    | nil => exact absurd rfl other
    | cons d name =>
      have member : d ∈ 'g' :: d :: name := List.mem_cons_of_mem _ List.mem_cons_self
      obtain ⟨-, noSlash, -, -, noGreater, -⟩ := isPlainChar_iff.mp (plain.2 d member)
      exact afterEmptyGroup?_of_longer (noBlank d member) noSlash noGreater _
  · unfold afterEmptyGroup?
    split
    · next same => exact absurd (List.cons.inj (List.cons.inj same).2).1 first
    · rfl

theorem afterEmptyGroup?_atMarkup : AtMarkup (removal afterEmptyGroup?) where
  elsewhere c s other := by
    rw [removal, Option.map_eq_none_iff]
    unfold afterEmptyGroup?
    split
    · next same => exact absurd (List.cons.inj same).1 other
    · rfl
  declaration _ _ _ := rfl
  instruction _ := rfl

/-- Nothing is found in a section in which no tag of a group begins. -/
theorem idle_groupless {p : Piece} (framed : p.Framed) (groupless : p.isSection = true → ∀ w ∈ p.body.tails, ¬ BeginsGroup w)
    (s : Text) : Text.Idle (removal afterEmptyGroup?) p.source s := by
  refine afterEmptyGroup?_atMarkup.idle_framed framed fun isSection => Text.idle_of_suffixes fun w ends _ => ?_
  rw [removal, Option.map_eq_none_iff]
  by_cases starts : ['<', 'g'] <+: w ++ (p.closing ++ s)
  · -- a longer name goes on within the body
    obtain ⟨tail, rfl⟩ := Piece.prefix_of_isSection isSection (by decide) starts
    have longer := groupless isSection _ ((List.mem_tails _ _).mpr ends)
    cases tail with
    | nil => exact absurd ⟨List.prefix_rfl, fun c head => by cases head⟩ longer
    | cons c tail =>
      have other : ¬ (Text.isBlank c = true ∨ c = '/' ∨ c = '>') := fun mark =>
        longer ⟨⟨c :: tail, rfl⟩, fun d head => Option.some.inj head ▸ mark⟩
      simp only [not_or, Bool.not_eq_true] at other
      exact afterEmptyGroup?_of_longer other.1 other.2.1 other.2.2 _
  · unfold afterEmptyGroup?
    split
    · next c rest same => exact absurd ⟨c :: rest, same.symm⟩ starts
    · rfl

end Shrink

/-- Between blanks nothing but the end tag that follows content ends it. -/
theorem SpelledContent.eq_of_dropWhile_source {level : Shrink.Level} {styled : Prop} {c : SpelledContent}
    (meets : c.Meets ⟨Piece.Inert level, SpelledTag.Ready styled⟩) {u v : Text}
    (same : (c.source ++ '<' :: '/' :: u).dropWhile Text.isBlank = '<' :: '/' :: v) : u = v := by
  have first {d : Char} {w : Text} (noBlank : Text.isBlank d = false) : (d :: w).dropWhile Text.isBlank = d :: w :=
    List.dropWhile_cons_of_neg (by simp [noBlank])
  have tag {t : SpelledTag} (ready : t.Ready styled) {w : Text}
      (same : ('<' :: (t.inside ++ w)).dropWhile Text.isBlank = '<' :: '/' :: v) : False := by
    obtain ⟨d, rest, inside, noSlash, -⟩ := ready.tidy.proper.exists_inside
    rw [first (by decide), inside] at same
    exact noSlash (List.cons.inj (List.cons.inj same).2).1
  induction c with
  | nil =>
    rw [source_nil, List.nil_append, first (by decide)] at same
    exact (List.cons.inj (List.cons.inj same).2).2
  | other p next ih =>
    obtain ⟨here, later⟩ := meets
    rw [source_other, List.append_assoc] at same
    cases p with
    | text run =>
      change (run ++ (next.source ++ '<' :: '/' :: u)).dropWhile Text.isBlank = _ at same
      rw [List.dropWhile_append] at same
      cases rest : run.dropWhile Text.isBlank with
      | nil =>
        rw [rest] at same
        exact ih later same
      | cons d rest' =>
        rw [rest] at same
        obtain ⟨rfl, -⟩ := List.cons.inj (same : d :: (rest' ++ _) = _)
        have member : '<' ∈ run := (List.dropWhile_suffix _).subset (by rw [rest]; exact List.mem_cons_self)
        exact absurd (by decide) (here.framed '<' member)
    | reference body =>
      rw [Piece.source, List.cons_append, first (by decide)] at same
      cases (List.cons.inj same).1
    | characterData | doctype | instruction =>
      rw [Piece.source, List.cons_append, first (by decide)] at same
      cases (List.cons.inj (List.cons.inj same).2).1
    | _ => exact here.framed.elim
  | empty t next =>
    rw [source_empty, List.append_assoc] at same
    exact (tag meets.1 (by simpa [Piece.source] using same)).elim
  | element t blanks inside next =>
    rw [source_element, List.append_assoc] at same
    exact (tag meets.1.1 (by simpa [Piece.source] using same)).elim

namespace Shrink

variable {level : Level} {styled : Prop}

/-- What is recognised after the start tag of a group is its end tag, right behind nothing but blanks. -/
theorem afterGroupEnd?_content {c : SpelledContent} (meets : c.Meets ⟨Piece.Inert level, SpelledTag.Ready styled⟩)
    {blanks s r : Text} (blank : Spaces blanks)
    (found : afterGroupEnd? ('>' :: (c.source ++ ((Piece.endTag (groupName ++ blanks)).source ++ s))) = some r) :
    blanks = [] ∧ s = r := by
  have same : (c.source ++ '<' :: '/' :: ('g' :: (blanks ++ '>' :: s))).dropWhile Text.isBlank =
      '<' :: '/' :: 'g' :: '>' :: r := by
    have whole := Text.dropPrefix?_eq_some_iff.mp found
    simpa [Piece.source, groupName] using whole
  have last := (List.cons.inj (SpelledContent.eq_of_dropWhile_source meets same)).2
  cases blanks with
  | nil => exact ⟨rfl, (List.cons.inj last).2⟩
  | cons c blanks =>
    obtain ⟨rfl, -⟩ := List.cons.inj last
    cases blank '>' List.mem_cons_self

/-- A group that is recognised goes. -/
theorem substitute_emptyGroup {c : Char} {s r : Text} (found : afterEmptyGroup? (c :: (s ++ r)) = some r) :
    Text.substitute (removal afterEmptyGroup?) (c :: (s ++ r)) = Text.substitute (removal afterEmptyGroup?) r :=
  remove_cons_of_some found (List.suffix_append s r).length_le

/-- A tag of another name stays. -/
theorem idle_otherTag {t : SpelledTag} (ready : t.Ready styled) (other : t.name ≠ groupName) {u : Text} (flat : '<' ∉ u)
    (s : Text) : Text.Idle (removal afterEmptyGroup?) ('<' :: (t.inside ++ u)) s := by
  refine afterEmptyGroup?_atMarkup.idle_tag ready.tidy flat ?_
  have missing := afterEmptyGroup?_of_ne ready.tidy.proper.name ready.tidy.name.noBlank other (t.middle ++ t.blanks ++ u ++ s)
  rw [removal, Option.map_eq_none_iff]
  simpa [SpelledTag.inside] using missing

/-- One round takes out groups as a whole and nothing else. -/
theorem removeEmptyGroups_sweeps (heavy : level ≠ .light) : Sweeps (removal afterEmptyGroup?) ⟨Piece.Inert level, SpelledTag.Ready styled⟩
    ⟨Piece.Inert level, SpelledTag.Ready styled⟩ (fun _ => False) (· = groupName) where
  mark s := afterEmptyGroup?_atMarkup.elsewhere _ s (by decide)
  other p inert s _ := by
    exact ⟨p, inert, id, (idle_groupless inert.framed (fun isSection => (inert.untagged isSection).group heavy) s).substitute⟩
  empty t ready s := by
    by_cases named : t.name = groupName
    · have ends : afterGroupEnd? ('/' :: '>' :: s) = some s := rfl
      have found := (afterEmptyGroup?_of_named ready.tidy.proper named (.inr rfl) ('>' :: s)).trans ends
      have removed := substitute_emptyGroup (c := '<') (s := t.inside ++ ['/', '>']) (r := s) (by simpa using found)
      exact .inl ⟨named, by simpa [Piece.source] using removed⟩
    · exact .inr ⟨t, ready, .refl t, (idle_otherTag ready named (by decide) s).substitute⟩
  element t blanks inside ready blank within s rest follows := by
    by_cases named : t.name = groupName
    · have found := afterEmptyGroup?_of_named ready.tidy.proper named (.inl rfl) rest
      cases ends : afterGroupEnd? ('>' :: rest) with
      | none =>
        have idle := afterEmptyGroup?_atMarkup.idle_tag ready.tidy (u := ['>']) (s := rest) (by decide)
          (by simp [removal, found, ends])
        exact .inr ⟨t, ready, .refl t, idle.substitute⟩
      | some r =>
        rw [ends, follows, named] at found
        rw [follows, named] at ends ⊢
        obtain ⟨rfl, rfl⟩ := afterGroupEnd?_content within blank ends
        have removed := substitute_emptyGroup (c := '<') (r := s)
          (s := t.inside ++ '>' :: (inside.source ++ (Piece.endTag (groupName ++ [])).source)) (by simpa using found)
        exact .inl ⟨rfl, by simpa [Piece.source] using removed⟩
    · exact .inr ⟨t, ready, .refl t, (idle_otherTag ready named (by decide) rest).substitute⟩
  close t blanks ready blank s :=
    (afterEmptyGroup?_atMarkup.idle_endTag ready.tidy.proper.name blank rfl).substitute

/-- Taking out groups until none is left keeps the terms, and what is true of content with fewer groups. -/
theorem collapseGroups_holds (heavy : level ≠ .light) {fact : SpelledContent → Prop}
    (lasts : ∀ {c c' : SpelledContent}, c.Reduces (SpelledTag.Keeps fun _ => False) (· = groupName) c' → fact c → fact c') {s : Text}
    (holds : Terms.Holds ⟨Piece.Inert level, SpelledTag.Ready styled⟩ fact s) :
    Terms.Holds ⟨Piece.Inert level, SpelledTag.Ready styled⟩ fact (collapseGroups s) := by
  induction s using collapseGroups.induct with
  | case1 s next shorter ih =>
    rw [collapseGroups, if_pos shorter]
    exact ih ((removeEmptyGroups_sweeps heavy).holds (fun _ _ => Piece.inert_join) lasts holds)
  | case2 s next longer =>
    rw [collapseGroups, if_neg longer]
    exact holds

end Shrink
end SvgEdit
