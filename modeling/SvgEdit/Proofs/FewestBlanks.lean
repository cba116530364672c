import SvgEdit.Proofs.BlanksAgain

/-!
# What is left of blanks

Removing blanks keeps the characters that are none, in their order. Of the blanks it leaves single ones,
and none of them between tags, at the ends of a tag, or around an `=` before a quote; and a text that has
no others is left as it is.
-/
namespace SvgEdit

/-! ## Characters that stay -/

theorem Sparser.filter_eq {s t : Text} (h : Sparser s t) : t.filter (!Text.isBlank ·) = s.filter (!Text.isBlank ·) := by
  induction h with
  | nil => rfl
  | keep c _ ih => rw [List.filter_cons, List.filter_cons, ih]
  | drop blank _ ih => simp [blank, ih]
  | write blank blank' _ ih => simp [blank, blank', ih]

namespace Shrink

theorem filter_removeBlanks (s : Text) : (removeBlanks s).filter (!Text.isBlank ·) = s.filter (!Text.isBlank ·) := by
  refine @removeBlanks_induction s (fun t => t.filter (!Text.isBlank ·) = s.filter (!Text.isBlank ·)) ?_ rfl
  intro u t thinned same
  rw [thinned.sparser.filter_eq, same]

/-! ## Blanks that stay -/

/-- Blanks stand one by one, and nowhere that they do not count. -/
structure FewestBlanks (s : Text) : Prop where
  betweenTags : ∀ u blanks v, (∀ c ∈ blanks, Text.isBlank c = true) → s = u ++ '>' :: (blanks ++ '<' :: v) → blanks = []
  aroundEquals : ∀ u blanks blanks' q v, (∀ c ∈ blanks, Text.isBlank c = true) → (∀ c ∈ blanks', Text.isBlank c = true) →
    (q = '"' ∨ q = '\'') → s = u ++ (blanks ++ '=' :: (blanks' ++ q :: v)) → blanks = [] ∧ blanks' = []
  afterOpening : ∀ u c v, s = u ++ '<' :: c :: v → Text.isBlank c = false
  beforeClosing : ∀ u c v, s = u ++ c :: '>' :: v → Text.isBlank c = false
  single : ∀ u c d v, s = u ++ c :: d :: v → Text.isBlank c = true → Text.isBlank d = false

variable {s : Text}

/-- Nothing changes where a text goes on. -/
theorem Still.of_append {step : Text.Step} {u w : Text} (still : Still step (u ++ w)) (nonempty : w ≠ []) :
    ¬ Changes step w := by
  obtain ⟨c, w, rfl⟩ := List.exists_cons_of_ne_nil nonempty
  exact still c w (List.suffix_append u _)

/-- Where no way of removing blanks changes anything, they are as few as can be. -/
theorem fewestBlanks_of_still (still : ∀ step ∈ blankSteps, Still step s) : FewestBlanks s where
  betweenTags u blanks v blank whole := by
    subst whole
    by_contra nonempty
    have settled := (still betweenTags? (by simp [blankSteps])).of_append (List.cons_ne_nil _ _)
    refine settled ⟨_, v, betweenTags?_eq_some_iff.mpr ⟨blanks, ⟨nonempty, blank⟩, rfl, rfl⟩, ne_of_length ?_⟩
    have positive := List.length_pos_iff.mpr nonempty
    simp only [List.length_append, List.length_cons, List.length_nil]
    omega
  aroundEquals u blanks blanks' q v blank blank' quote whole := by
    subst whole
    have settled := (still equalsQuote? (by simp [blankSteps])).of_append (by simp)
    by_contra some
    refine settled ⟨_, v, equalsQuote?_eq_some_iff.mpr ⟨blanks, blanks', q, blank, blank', quote, rfl, rfl⟩, ne_of_length ?_⟩
    have positive : 0 < blanks.length + blanks'.length := by
      by_contra none
      exact some ⟨List.eq_nil_of_length_eq_zero (by omega), List.eq_nil_of_length_eq_zero (by omega)⟩
    simp only [List.length_append, List.length_cons, List.length_nil]
    omega
  afterOpening u c v whole := by
    subst whole
    have settled := (still afterOpening? (by simp [blankSteps])).of_append (List.cons_ne_nil _ _)
    by_contra blank
    exact settled (changes_afterOpening?_iff.mpr ⟨c, v, rfl, by simpa using blank⟩)
  beforeClosing u c v whole := by
    subst whole
    have settled := (still beforeClosing? (by simp [blankSteps])).of_append (List.cons_ne_nil _ _)
    by_contra blank
    have run : BlankRun [c] := ⟨List.cons_ne_nil _ _, by simpa using blank⟩
    exact settled ⟨_, v, beforeClosing?_eq_some_iff.mpr ⟨[c], run, rfl, rfl⟩, ne_of_length (by simp)⟩
  single u c d v whole blank := by
    subst whole
    have settled := (still blankRun? (by simp [blankSteps])).of_append (List.cons_ne_nil _ _)
    by_contra blank'
    exact settled (changes_blankRun?_iff.mpr ⟨c, d, v, rfl, blank, by simpa using blank'⟩)

/-- Where blanks are as few as can be, no way of removing them changes anything. -/
theorem FewestBlanks.still (few : FewestBlanks s) : ∀ step ∈ blankSteps, Still step s := by
  simp only [blankSteps, List.forall_mem_cons]
  refine ⟨?_, ?_, ?_, ?_, ?_, fun _ member => absurd member List.not_mem_nil⟩
  all_goals rintro c w ⟨u, rfl⟩ changes
  · obtain ⟨new, rest, found, -⟩ := changes
    obtain ⟨blanks, run, same, -⟩ := betweenTags?_eq_some_iff.mp found
    exact run.nonempty (few.betweenTags u blanks rest run.blank (by rw [same]))
  · obtain ⟨new, rest, found, different⟩ := changes
    obtain ⟨blanks, blanks', q, blank, blank', quote, same, rfl⟩ := equalsQuote?_eq_some_iff.mp found
    obtain ⟨rfl, rfl⟩ := few.aroundEquals u blanks blanks' q rest blank blank' quote (by rw [same])
    exact different same.symm
  · obtain ⟨b, t, same, blank⟩ := changes_afterOpening?_iff.mp changes
    rw [few.afterOpening u b t (by rw [same])] at blank
    cases blank
  · obtain ⟨new, rest, found, -⟩ := changes
    obtain ⟨blanks, run, same, -⟩ := beforeClosing?_eq_some_iff.mp found
    obtain ⟨front, b, rfl⟩ := List.eq_nil_or_concat blanks |>.resolve_left run.nonempty
    have noBlank := few.beforeClosing (u ++ front) b rest (by rw [same]; simp)
    rw [run.blank b (by simp)] at noBlank
    cases noBlank
  · obtain ⟨b, b', t, same, blank, blank'⟩ := changes_blankRun?_iff.mp changes
    rw [few.single u b b' t (by rw [same]) blank] at blank'
    cases blank'

/-- The texts that removing blanks leaves as they are. -/
theorem removeBlanks_eq_self_iff : removeBlanks s = s ↔ FewestBlanks s := by
  constructor
  · intro same
    have still := still_removeBlanks s
    rw [same] at still
    exact fewestBlanks_of_still still
  · intro few
    exact foldl_of_still few.still

/--
Removing blanks keeps all other characters and leaves as few blanks as can be, so that nothing changes when it is
done again.
-/
theorem removeBlanks_leaves_fewest (s : Text) :
    (removeBlanks s).filter (!Text.isBlank ·) = s.filter (!Text.isBlank ·) ∧ FewestBlanks (removeBlanks s) ∧
      removeBlanks (removeBlanks s) = removeBlanks s := by
  have again := removeBlanks_removeBlanks s
  exact ⟨filter_removeBlanks s, removeBlanks_eq_self_iff.mp again, again⟩

end Shrink
end SvgEdit
