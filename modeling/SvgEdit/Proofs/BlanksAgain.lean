import SvgEdit.Proofs.CondensingPasses

/-!
# Blanks removed again

Each of the five ways of removing blanks leaves a text in which it changes nothing, and the ways after it
do not bring back what it looks for, as they write no character but blanks and leave no other one out. So
blanks are removed once and for all.
-/
namespace SvgEdit

/-! ## Texts that differ in blanks -/

/-- The second text is the first one with some blanks left out and some written as others. -/
inductive Sparser : Text → Text → Prop
  | nil : Sparser [] []
  | keep (c : Char) {s t : Text} : Sparser s t → Sparser (c :: s) (c :: t)
  | drop {b : Char} {s t : Text} : Text.isBlank b = true → Sparser s t → Sparser (b :: s) t
  | write {b b' : Char} {s t : Text} : Text.isBlank b = true → Text.isBlank b' = true → Sparser s t →
    Sparser (b :: s) (b' :: t)

namespace Sparser

variable {s t u : Text}

theorem drops {blanks : Text} (blank : ∀ c ∈ blanks, Text.isBlank c = true) (h : Sparser s t) :
    Sparser (blanks ++ s) t := by
  induction blanks with
  | nil => exact h
  | cons b blanks ih =>
    obtain ⟨first, later⟩ := List.forall_mem_cons.mp blank
    exact .drop first (ih later)

theorem writes {blanks : Text} (run : BlankRun blanks) (h : Sparser s t) : Sparser (blanks ++ s) (' ' :: t) := by
  obtain ⟨b, blanks, rfl⟩ := List.exists_cons_of_ne_nil run.nonempty
  obtain ⟨first, later⟩ := List.forall_mem_cons.mp run.blank
  exact .write first (by decide) (h.drops later)

/-- Two characters that are the same or both blank. -/
def Alike (c d : Char) : Prop := c = d ∨ Text.isBlank c = true ∧ Text.isBlank d = true

theorem Alike.isBlank {c d : Char} (alike : Alike c d) (blank : Text.isBlank d = true) : Text.isBlank c = true := by
  rcases alike with rfl | both
  · exact blank
  · exact both.1

theorem Alike.eq {c d : Char} (alike : Alike c d) (noBlank : Text.isBlank d = false) : c = d := by
  rcases alike with same | ⟨-, blank⟩
  · exact same
  · rw [noBlank] at blank
    cases blank

theorem of_alike {c d : Char} (alike : Alike c d) (h : Sparser s t) : Sparser (c :: s) (d :: t) := by
  rcases alike with rfl | ⟨blank, blank'⟩
  · exact .keep c h
  · exact .write blank blank' h

/-- Where a character comes from. -/
theorem exists_cons {c : Char} (h : Sparser s (c :: t)) :
    ∃ u d s', s = u ++ d :: s' ∧ (∀ b ∈ u, Text.isBlank b = true) ∧ Alike d c ∧ Sparser s' t := by
  generalize whole : c :: t = w at h
  induction h with
  | nil => cases whole
  | keep d later =>
    obtain ⟨rfl, rfl⟩ := List.cons.inj whole
    exact ⟨[], c, _, rfl, fun _ member => absurd member List.not_mem_nil, .inl rfl, later⟩
  | drop blank _ ih =>
    obtain ⟨u, d, s', rfl, blanks, alike, later⟩ := ih whole
    exact ⟨_ :: u, d, s', rfl, List.forall_mem_cons.mpr ⟨blank, blanks⟩, alike, later⟩
  | @write b b' _ _ blank blank' later =>
    obtain ⟨rfl, rfl⟩ := List.cons.inj whole
    exact ⟨[], b, _, rfl, fun _ member => absurd member List.not_mem_nil, .inr ⟨blank, blank'⟩, later⟩

/-- Where blanks come from. -/
theorem exists_blanks (blank : ∀ c ∈ u, Text.isBlank c = true) (h : Sparser s (u ++ t)) :
    ∃ v s', s = v ++ s' ∧ (∀ c ∈ v, Text.isBlank c = true) ∧ u.length ≤ v.length ∧ Sparser s' t := by
  induction u generalizing s with
  | nil => exact ⟨[], s, rfl, fun _ member => absurd member List.not_mem_nil, le_refl _, h⟩
  | cons c u ih =>
    obtain ⟨first, blank⟩ := List.forall_mem_cons.mp blank
    obtain ⟨v, d, s₁, rfl, blanks, alike, h⟩ := h.exists_cons
    obtain ⟨v', s', rfl, blanks', long, later⟩ := ih blank h
    refine ⟨v ++ d :: v', s', by simp, ?_, ?_, later⟩
    · exact List.forall_mem_append.mpr ⟨blanks, List.forall_mem_cons.mpr ⟨alike.isBlank first, blanks'⟩⟩
    · simp only [List.length_append, List.length_cons]
      omega

/-- Where blanks and a character that is none come from. -/
theorem exists_blanks_cons {c : Char} (blank : ∀ c ∈ u, Text.isBlank c = true) (noBlank : Text.isBlank c = false)
    (h : Sparser s (u ++ c :: t)) :
    ∃ v s', s = v ++ c :: s' ∧ (∀ c ∈ v, Text.isBlank c = true) ∧ u.length ≤ v.length ∧ Sparser s' t := by
  obtain ⟨v, s₁, rfl, blanks, long, h⟩ := h.exists_blanks blank
  obtain ⟨v', d, s', rfl, blanks', alike, later⟩ := h.exists_cons
  obtain rfl := alike.eq noBlank
  refine ⟨v ++ v', s', by simp, List.forall_mem_append.mpr ⟨blanks, blanks'⟩, ?_, later⟩
  rw [List.length_append]
  omega

/-- A blank at the beginning was there. -/
theorem exists_blank {c : Char} (h : Sparser s (c :: t)) (blank : Text.isBlank c = true) :
    ∃ d s', s = d :: s' ∧ Text.isBlank d = true := by
  cases h with
  | keep => exact ⟨c, _, rfl, blank⟩
  | drop blank' => exact ⟨_, _, rfl, blank'⟩
  | write blank' => exact ⟨_, _, rfl, blank'⟩

/-- Where what follows a part comes from. -/
theorem exists_suffix (h : Sparser s (u ++ t)) : ∃ s', s' <:+ s ∧ Sparser s' t := by
  induction u generalizing s with
  | nil => exact ⟨s, List.suffix_refl s, h⟩
  | cons c u ih =>
    obtain ⟨v, d, s₁, rfl, -, -, h⟩ := h.exists_cons
    obtain ⟨s', ends, later⟩ := ih h
    exact ⟨s', ends.trans ((List.suffix_cons d s₁).trans (List.suffix_append v _)), later⟩

theorem length_le (h : Sparser s t) : t.length ≤ s.length := by
  induction h with
  | nil => exact le_refl _
  | keep _ _ ih => exact Nat.succ_le_succ ih
  | drop _ _ ih => exact Nat.le_succ_of_le ih
  | write _ _ _ ih => exact Nat.succ_le_succ ih

end Sparser

theorem Thinned.sparser {s t : Text} (h : Thinned s t) : Sparser s t := by
  induction h with
  | nil => exact .nil
  | keep c _ ih => exact .keep c ih
  | blank run _ ih => exact ih.writes run
  | noBlank run _ _ ih => exact ih.drops run.blank
  | opening run _ ih => exact .keep '<' (ih.drops run.blank)

/-! ## Texts in which a step changes nothing -/

namespace Shrink

open Sparser

/-- The step changes the beginning of the text. -/
def Changes (step : Text.Step) (s : Text) : Prop := ∃ new rest, step s = some (new, rest) ∧ new ++ rest ≠ s

/-- The step changes nothing, wherever in the text it begins. -/
def Still (step : Text.Step) (s : Text) : Prop := ∀ c w, c :: w <:+ s → ¬ Changes step (c :: w)

/-- A step that takes blanks out, and does not change what it leaves. -/
structure Settles (step : Text.Step) : Prop where
  thinned : ∀ s new rest t, step s = some (new, rest) → Thinned rest t → Thinned s (new ++ t)
  leaves : ∀ s new rest, step s = some (new, rest) → rest.length < s.length
  /-- What changes a text changes the one from which it is made. -/
  lifts : ∀ c d s t, Alike c d → Sparser s t → Changes step (d :: t) → Changes step (c :: s)
  /-- Nothing changes in what is written. -/
  written : ∀ s new rest t, step s = some (new, rest) → Sparser rest t → Still step t → Still step (new ++ t)

variable {step : Text.Step} {s t : Text}

theorem still_cons {c : Char} : Still step (c :: s) ↔ ¬ Changes step (c :: s) ∧ Still step s := by
  constructor
  · intro h
    exact ⟨h c s (List.suffix_refl _), fun d w ends => h d w (ends.trans (List.suffix_cons c s))⟩
  · rintro ⟨here, later⟩ d w ends
    rcases List.suffix_cons_iff.mp ends with same | ends
    · rw [same]
      exact here
    · exact later d w ends

/-- A step that changes nothing leaves a text as it is. -/
theorem Still.substitute (still : Still step s) : Text.substitute step s = s := by
  refine Text.substitute_induction (fun s t => Still step s → t = s) (fun _ => rfl) (fun c s t later still => ?_)
    (fun c s new rest t found later still => ?_) s still
  · rw [later (still_cons.mp still).2]
  · have same : new ++ rest = c :: s := by
      by_contra different
      exact (still_cons.mp still).1 ⟨new, rest, found, different⟩
    rw [later fun d w ends => still d w (ends.trans ⟨new, same⟩), same]

namespace Settles

/-- Where nothing changes, nothing does after blanks are taken out. -/
theorem still_of_sparser (settles : Settles step) (sparser : Sparser s t) (still : Still step s) : Still step t := by
  rintro d w ⟨u, rfl⟩ changes
  obtain ⟨s', ends, later⟩ := sparser.exists_suffix
  obtain ⟨v, c, s₁, rfl, -, alike, later⟩ := later.exists_cons
  exact still c s₁ ((List.suffix_append v _).trans ends) (settles.lifts c d s₁ w alike later changes)

theorem sparser_substitute (settles : Settles step) (s : Text) : Sparser s (Text.substitute step s) :=
  (thinned_substitute settles.thinned s).sparser

/-- A step leaves a text in which it changes nothing. -/
theorem still_substitute (settles : Settles step) (s : Text) : Still step (Text.substitute step s) := by
  induction size : s.length using Nat.strong_induction_on generalizing s with
  | _ n ih =>
    cases s with
    | nil =>
      rw [Text.substitute_nil]
      exact fun c w ends => absurd (List.suffix_nil.mp ends) (List.cons_ne_nil c w)
    | cons c s =>
      cases found : step (c :: s) with
      | none =>
        have later := ih s.length (by rw [← size]; exact Nat.lt_succ_self _) s rfl
        rw [Text.substitute_cons_of_none found]
        refine still_cons.mpr ⟨fun changes => ?_, later⟩
        obtain ⟨new, rest, some, -⟩ := settles.lifts c c s _ (.inl rfl) (settles.sparser_substitute s) changes
        rw [found] at some
        cases some
      | some pair =>
        obtain ⟨new, rest⟩ := pair
        have shorter := settles.leaves _ _ _ found
        rw [Text.substitute_cons_of_some found (Nat.le_of_lt_succ shorter)]
        exact settles.written _ _ _ _ found (settles.sparser_substitute rest)
          (ih rest.length (by rw [← size]; exact shorter) rest rfl)

end Settles

/-! ## The steps -/

/-- A text in which a step recognises nothing at the beginning. -/
theorem not_changes_of_none (missing : step s = none) : ¬ Changes step s := by
  rintro ⟨new, rest, found, -⟩
  rw [missing] at found
  cases found

/-- Where characters are left out, something changes. -/
theorem ne_of_length {u v : Text} (shorter : u.length < v.length) : u ≠ v := by
  rintro rfl
  exact Nat.lt_irrefl _ shorter

theorem betweenTags?_of_other {c : Char} (other : c ≠ '>') (s : Text) : betweenTags? (c :: s) = none := by
  simp [betweenTags?, afterChar?, other]

theorem settles_betweenTags? : Settles betweenTags? where
  thinned _ _ _ _ := thinned_betweenTags?
  leaves s new rest found := by
    obtain ⟨blanks, run, rfl, rfl⟩ := betweenTags?_eq_some_iff.mp found
    simp only [List.length_cons, List.length_append]
    omega
  lifts c d s t alike sparser changes := by
    obtain ⟨new, rest, found, -⟩ := changes
    obtain ⟨blanks, run, same, rfl⟩ := betweenTags?_eq_some_iff.mp found
    obtain ⟨rfl, rfl⟩ := List.cons.inj same
    obtain rfl := alike.eq (by decide)
    obtain ⟨blanks', s', rfl, blank, long, -⟩ := sparser.exists_blanks_cons run.blank (by decide)
    have positive := Nat.lt_of_lt_of_le (List.length_pos_iff.mpr run.nonempty) long
    have run' : BlankRun blanks' := ⟨List.length_pos_iff.mp positive, blank⟩
    refine ⟨_, s', betweenTags?_eq_some_iff.mpr ⟨blanks', run', rfl, rfl⟩, ne_of_length ?_⟩
    simp only [List.length_cons, List.length_append, List.length_nil]
    omega
  written s new rest t found _ still := by
    obtain ⟨blanks, run, rfl, rfl⟩ := betweenTags?_eq_some_iff.mp found
    refine still_cons.mpr ⟨not_changes_of_none ?_, still_cons.mpr ⟨not_changes_of_none ?_, still⟩⟩
    · have noBlank : afterBlanks? ('<' :: t) = none := afterBlanks?_of_not_isBlank (by decide) t
      simp [betweenTags?, afterChar?, noBlank]
    · exact betweenTags?_of_other (by decide) t

theorem settles_equalsQuote? : Settles equalsQuote? where
  thinned _ _ _ _ := thinned_equalsQuote?
  leaves s new rest found := by
    obtain ⟨u, v, q, -, -, -, rfl, rfl⟩ := equalsQuote?_eq_some_iff.mp found
    simp only [List.length_cons, List.length_append]
    omega
  lifts c d s t alike sparser changes := by
    obtain ⟨new, rest, found, different⟩ := changes
    obtain ⟨u, v, q, blank, blank', quote, same, rfl⟩ := equalsQuote?_eq_some_iff.mp found
    have noBlank : Text.isBlank q = false := by rcases quote with rfl | rfl <;> decide
    have whole := sparser.of_alike alike
    rw [same] at whole
    obtain ⟨u', s₁, eq, blanks, long, later⟩ := whole.exists_blanks_cons blank (by decide)
    obtain ⟨v', s', rfl, blanks', long', -⟩ := later.exists_blanks_cons blank' noBlank
    refine ⟨_, s', equalsQuote?_eq_some_iff.mpr ⟨u', v', q, blanks, blanks', quote, eq, rfl⟩, ?_⟩
    rw [eq]
    rw [same] at different
    intro unchanged
    have length := congrArg List.length unchanged
    simp only [List.length_cons, List.length_append, List.length_nil] at length
    obtain rfl : u = [] := List.eq_nil_of_length_eq_zero (by omega)
    obtain rfl : v = [] := List.eq_nil_of_length_eq_zero (by omega)
    exact different rfl
  written s new rest t found _ still := by
    obtain ⟨u, v, q, -, -, quote, rfl, rfl⟩ := equalsQuote?_eq_some_iff.mp found
    have noBlank : Text.isBlank q = false := by rcases quote with rfl | rfl <;> decide
    refine still_cons.mpr ⟨?_, still_cons.mpr ⟨not_changes_of_none ?_, still⟩⟩
    · rintro ⟨new, rest', found', different⟩
      have same : equalsQuote? ('=' :: q :: t) = some (['=', q], t) :=
        equalsQuote?_eq_some_iff.mpr ⟨[], [], q, by simp, by simp, quote, rfl, rfl⟩
      obtain ⟨rfl, rfl⟩ := Prod.mk.inj (Option.some.inj (same.symm.trans found'))
      exact different rfl
    · have other : q ≠ '=' := by rcases quote with rfl | rfl <;> decide
      simp [equalsQuote?, afterChar?, noBlank, other]

theorem changes_afterOpening?_iff :
    Changes afterOpening? s ↔ ∃ b t, s = '<' :: b :: t ∧ Text.isBlank b = true := by
  constructor
  · rintro ⟨new, rest, found, -⟩
    obtain ⟨blanks, run, rfl, -, rfl⟩ := afterOpening?_eq_some_iff.mp found
    obtain ⟨b, blanks, rfl⟩ := List.exists_cons_of_ne_nil run.nonempty
    exact ⟨b, blanks ++ rest, rfl, run.blank b List.mem_cons_self⟩
  · rintro ⟨b, t, rfl, blank⟩
    refine ⟨['<'], t.dropWhile Text.isBlank, by simp [afterOpening?, afterChar?, afterBlanks?, blank], ne_of_length ?_⟩
    have shorter := (List.dropWhile_sublist Text.isBlank (l := t)).length_le
    simp only [List.length_append, List.length_cons, List.length_nil]
    omega

theorem settles_afterOpening? : Settles afterOpening? where
  thinned _ _ _ _ := thinned_afterOpening?
  leaves s new rest found := by
    obtain ⟨blanks, run, rfl, -, rfl⟩ := afterOpening?_eq_some_iff.mp found
    simp only [List.length_cons, List.length_append]
    omega
  lifts c d s t alike sparser changes := by
    obtain ⟨b, t', same, blank⟩ := changes_afterOpening?_iff.mp changes
    obtain ⟨rfl, rfl⟩ := List.cons.inj same
    obtain rfl := alike.eq (by decide)
    obtain ⟨b', s', rfl, blank'⟩ := sparser.exists_blank blank
    exact changes_afterOpening?_iff.mpr ⟨b', s', rfl, blank'⟩
  written s new rest t found sparser still := by
    obtain ⟨-, -, -, stop, rfl⟩ := afterOpening?_eq_some_iff.mp found
    refine still_cons.mpr ⟨fun changes => ?_, still⟩
    obtain ⟨b, t', same, blank⟩ := changes_afterOpening?_iff.mp changes
    obtain rfl := (List.cons.inj same).2
    obtain ⟨b', s', rfl, blank'⟩ := sparser.exists_blank blank
    rw [stop b' rfl] at blank'
    cases blank'

theorem settles_beforeClosing? : Settles beforeClosing? where
  thinned _ _ _ _ := thinned_beforeClosing?
  leaves s new rest found := by
    obtain ⟨blanks, run, rfl, rfl⟩ := beforeClosing?_eq_some_iff.mp found
    have positive := List.length_pos_iff.mpr run.nonempty
    simp only [List.length_cons, List.length_append]
    omega
  lifts c d s t alike sparser changes := by
    obtain ⟨new, rest, found, -⟩ := changes
    obtain ⟨blanks, run, same, rfl⟩ := beforeClosing?_eq_some_iff.mp found
    have whole := sparser.of_alike alike
    rw [same] at whole
    obtain ⟨blanks', s', eq, blank, long, -⟩ := whole.exists_blanks_cons run.blank (by decide)
    have positive := Nat.lt_of_lt_of_le (List.length_pos_iff.mpr run.nonempty) long
    have run' : BlankRun blanks' := ⟨List.length_pos_iff.mp positive, blank⟩
    refine ⟨_, s', beforeClosing?_eq_some_iff.mpr ⟨blanks', run', eq, rfl⟩, ne_of_length ?_⟩
    rw [eq]
    simp only [List.length_cons, List.length_append, List.length_nil]
    omega
  written s new rest t found _ still := by
    obtain ⟨-, -, -, rfl⟩ := beforeClosing?_eq_some_iff.mp found
    have noBlank : afterBlanks? ('>' :: t) = none := afterBlanks?_of_not_isBlank (by decide) t
    exact still_cons.mpr ⟨not_changes_of_none (by simp [beforeClosing?, noBlank]), still⟩

theorem changes_blankRun?_iff :
    Changes blankRun? s ↔ ∃ b b' t, s = b :: b' :: t ∧ Text.isBlank b = true ∧ Text.isBlank b' = true := by
  constructor
  · rintro ⟨new, rest, found, -⟩
    unfold blankRun? at found
    split at found
    · next b b' t =>
      split at found
      · next both => exact ⟨b, b', t, rfl, both⟩
      · cases found
    · cases found
  · rintro ⟨b, b', t, rfl, both⟩
    refine ⟨[' '], t.dropWhile Text.isBlank, by simp [blankRun?, both], ne_of_length ?_⟩
    have shorter := (List.dropWhile_sublist Text.isBlank (l := t)).length_le
    simp only [List.length_append, List.length_cons, List.length_nil]
    omega

theorem settles_blankRun? : Settles blankRun? where
  thinned _ _ _ _ := thinned_blankRun?
  leaves s new rest found := by
    obtain ⟨blanks, run, long, rfl, -, rfl⟩ := blankRun?_eq_some_iff.mp found
    rw [List.length_append]
    omega
  lifts c d s t alike sparser changes := by
    obtain ⟨b, b', t', same, blank, blank'⟩ := changes_blankRun?_iff.mp changes
    obtain ⟨rfl, rfl⟩ := List.cons.inj same
    obtain ⟨e, s', rfl, blank''⟩ := sparser.exists_blank blank'
    exact changes_blankRun?_iff.mpr ⟨c, e, s', rfl, alike.isBlank blank, blank''⟩
  written s new rest t found sparser still := by
    obtain ⟨-, -, -, -, stop, rfl⟩ := blankRun?_eq_some_iff.mp found
    refine still_cons.mpr ⟨fun changes => ?_, still⟩
    obtain ⟨b, b', t', same, -, blank⟩ := changes_blankRun?_iff.mp changes
    obtain rfl := (List.cons.inj same).2
    obtain ⟨e, s', rfl, blank'⟩ := sparser.exists_blank blank
    rw [stop e rfl] at blank'
    cases blank'

/-! ## All steps -/

section Steps

variable {steps : List Text.Step}

theorem still_foldl (settles : Settles step) (settle : ∀ step ∈ steps, Settles step) (still : Still step s) :
    Still step (steps.foldl (fun s step => Text.substitute step s) s) := by
  induction steps generalizing s with
  | nil => exact still
  | cons next steps ih =>
    obtain ⟨here, settle⟩ := List.forall_mem_cons.mp settle
    exact ih settle (settles.still_of_sparser (here.sparser_substitute s) still)

/-- After all steps, none of them changes anything. -/
theorem forall_still_foldl (settle : ∀ step ∈ steps, Settles step) (s : Text) :
    ∀ step ∈ steps, Still step (steps.foldl (fun s step => Text.substitute step s) s) := by
  induction steps generalizing s with
  | nil => exact fun _ member => absurd member List.not_mem_nil
  | cons next steps ih =>
    obtain ⟨here, settle⟩ := List.forall_mem_cons.mp settle
    have first := still_foldl here settle (here.still_substitute s)
    exact List.forall_mem_cons.mpr ⟨first, ih settle _⟩

theorem foldl_of_still (still : ∀ step ∈ steps, Still step s) :
    steps.foldl (fun s step => Text.substitute step s) s = s := by
  induction steps with
  | nil => rfl
  | cons next steps ih =>
    obtain ⟨here, still⟩ := List.forall_mem_cons.mp still
    rw [List.foldl_cons, here.substitute, ih still]

end Steps

theorem length_removeBlanks_le (s : Text) : (removeBlanks s).length ≤ s.length :=
  @removeBlanks_induction s (fun t => t.length ≤ s.length)
    (fun _ _ thinned => thinned.sparser.length_le.trans) (le_refl _)

/-- The ways of removing blanks, in order. -/
def blankSteps : List Text.Step := [betweenTags?, equalsQuote?, afterOpening?, beforeClosing?, blankRun?]

theorem settles_of_mem_blankSteps : ∀ step ∈ blankSteps, Settles step := by
  simp only [blankSteps, List.forall_mem_cons]
  exact ⟨settles_betweenTags?, settles_equalsQuote?, settles_afterOpening?, settles_beforeClosing?,
    settles_blankRun?, fun _ member => absurd member List.not_mem_nil⟩

theorem still_removeBlanks (s : Text) : ∀ step ∈ blankSteps, Still step (removeBlanks s) :=
  forall_still_foldl settles_of_mem_blankSteps s

/-- Removing blanks again changes nothing. -/
theorem removeBlanks_removeBlanks (s : Text) : removeBlanks (removeBlanks s) = removeBlanks s :=
  foldl_of_still (still_removeBlanks s)

end Shrink
end SvgEdit
