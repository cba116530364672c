import SvgEdit.Shrink.Removal
import Mathlib

/-!
# Substituting in parts

A text can be substituted part by part where no match goes beyond a part. `Idle` is the case that no
match begins in a part at all.
-/
namespace SvgEdit
namespace Text

/-- What is looked for in a text: what to write instead, and what is left to read. -/
abbrev Step := Text → Option (Text × Text)

variable {step : Step}

theorem substitute_nil : substitute step [] = [] := by rw [substitute]

theorem substitute_cons_of_none {c : Char} {s : Text} (missing : step (c :: s) = none) :
    substitute step (c :: s) = c :: substitute step s := by
  rw [substitute, missing]

theorem substitute_cons_of_some {c : Char} {s new rest : Text} (found : step (c :: s) = some (new, rest))
    (shorter : rest.length ≤ s.length) : substitute step (c :: s) = new ++ substitute step rest := by
  rw [substitute, found]
  exact if_pos shorter

/-- What holds of a text and itself, part by part, and of each match and what is written for it, holds of a text
and what is substituted in it. -/
theorem substitute_induction (rel : Text → Text → Prop) (nil : rel [] []) (keep : ∀ c s t, rel s t → rel (c :: s) (c :: t))
    (write : ∀ c s new rest t, step (c :: s) = some (new, rest) → rel rest t → rel (c :: s) (new ++ t)) (s : Text) :
    rel s (substitute step s) := by
  induction size : s.length using Nat.strong_induction_on generalizing s with
  | _ n ih =>
    cases s with
    | nil =>
      rw [substitute_nil]
      exact nil
    | cons c s =>
      have later := keep c _ _ (ih s.length (by rw [← size]; exact Nat.lt_succ_self _) s rfl)
      cases found : step (c :: s) with
      | none =>
        rw [substitute_cons_of_none found]
        exact later
      | some pair =>
        obtain ⟨new, rest⟩ := pair
        by_cases shorter : rest.length ≤ s.length
        · rw [substitute_cons_of_some found shorter]
          exact write _ _ _ _ _ found (ih rest.length (by rw [← size]; exact Nat.lt_succ_of_le shorter) rest rfl)
        · rw [substitute, found]
          simp only [shorter, if_false]
          exact later

/-! ## Parts without a match -/

/-- No match begins in the first text where the second one follows it. -/
def Idle (step : Step) : Text → Text → Prop
  | [], _ => True
  | c :: u, s => step (c :: (u ++ s)) = none ∧ Idle step u s

theorem Idle.substitute {u s : Text} (h : Idle step u s) : substitute step (u ++ s) = u ++ substitute step s := by
  induction u with
  | nil => rfl
  | cons c u ih =>
    obtain ⟨missing, later⟩ := h
    rw [List.cons_append, substitute_cons_of_none missing, ih later]
    rfl

theorem idle_append_iff {u v s : Text} : Idle step (u ++ v) s ↔ Idle step u (v ++ s) ∧ Idle step v s := by
  induction u with
  | nil => simp [Idle]
  | cons c u ih => rw [List.cons_append, Idle, Idle, ih, List.append_assoc, and_assoc]

theorem idle_of_suffixes {u s : Text} (h : ∀ w, w <:+ u → w ≠ [] → step (w ++ s) = none) : Idle step u s := by
  induction u with
  | nil => trivial
  | cons c u ih =>
    refine ⟨h (c :: u) (List.suffix_refl _) (List.cons_ne_nil c u), ih fun w ends nonempty => ?_⟩
    exact h w (ends.trans (List.suffix_cons c u)) nonempty

/-- Where every character rules out a match, none begins. -/
theorem idle_of_chars {u : Text} (h : ∀ c ∈ u, ∀ t, step (c :: t) = none) (s : Text) : Idle step u s := by
  refine idle_of_suffixes fun w ends nonempty => ?_
  obtain ⟨c, w, rfl⟩ := List.exists_cons_of_ne_nil nonempty
  exact h c (ends.subset List.mem_cons_self) _

/-! ## Parts of their own -/

/-- A match in a part is the same one where `s` follows the part. -/
def Local (step : Step) (u s : Text) : Prop :=
  ∀ w, w <:+ u → w ≠ [] → step (w ++ s) = (step w).map fun (new, rest) => (new, rest ++ s)

/-- What is left to read is a part of what was read. -/
def LeavesSuffix (step : Step) : Prop := ∀ s new rest, step s = some (new, rest) → rest <:+ s

theorem Local.substitute (suffix : LeavesSuffix step) {u s : Text} (h : Local step u s) :
    substitute step (u ++ s) = substitute step u ++ substitute step s := by
  induction size : u.length using Nat.strong_induction_on generalizing u with
  | _ n ih =>
    cases u with
    | nil => rw [substitute_nil]; rfl
    | cons c u =>
      have here := h (c :: u) (List.suffix_refl _) (List.cons_ne_nil c u)
      have going : Text.substitute step (u ++ s) = Text.substitute step u ++ Text.substitute step s :=
        ih u.length (by rw [← size]; exact Nat.lt_succ_self _)
          (fun w ends => h w (ends.trans (List.suffix_cons c u))) rfl
      rw [List.cons_append] at here ⊢
      cases found : step (c :: u) with
      | none =>
        rw [found] at here
        rw [substitute_cons_of_none here, substitute_cons_of_none found, going]
        rfl
      | some pair =>
        obtain ⟨new, rest⟩ := pair
        rw [found] at here
        have ends := suffix _ _ _ found
        by_cases shorter : rest.length ≤ u.length
        · have longer : (rest ++ s).length ≤ (u ++ s).length := by
            simp only [List.length_append]
            omega
          rw [substitute_cons_of_some here longer, substitute_cons_of_some found shorter,
            ih rest.length (by rw [← size]; exact Nat.lt_succ_of_le shorter) (fun w later => h w (later.trans ends)) rfl,
            List.append_assoc]
        · have longer : ¬ (rest ++ s).length ≤ (u ++ s).length := by
            simp only [List.length_append]
            omega
          rw [Text.substitute, here, Text.substitute, found]
          simp only [Option.map_some, longer, shorter, if_false, going, List.cons_append]

end Text

/-! ## Removing -/

namespace Shrink

/-- A part that is recognised is taken from the beginning of the text. -/
def TakesOff (after? : Text → Option Text) : Prop :=
  ∀ c s rest, after? (c :: s) = some rest → rest <:+ s

variable {after? : Text → Option Text}

theorem remove_nil : remove after? [] = [] := Text.substitute_nil

theorem remove_cons_of_none {c : Char} {s : Text} (missing : after? (c :: s) = none) :
    remove after? (c :: s) = c :: remove after? s :=
  Text.substitute_cons_of_none (by rw [missing]; rfl)

theorem remove_cons_of_some {c : Char} {s rest : Text} (found : after? (c :: s) = some rest)
    (shorter : rest.length ≤ s.length) : remove after? (c :: s) = remove after? rest := by
  rw [remove, Text.substitute_cons_of_some (by rw [found]; rfl) shorter]
  rfl

theorem remove_sublist (off : TakesOff after?) (s : Text) : (remove after? s).Sublist s := by
  refine Text.substitute_induction (fun s t => t.Sublist s) .slnil (fun c _ _ later => later.cons_cons c) ?_ s
  intro c s new rest t found later
  obtain ⟨rest', recognised, same⟩ := Option.map_eq_some_iff.mp found
  obtain ⟨rfl, rfl⟩ := Prod.mk.inj same
  exact later.trans ((off c s _ recognised).sublist.trans (List.sublist_cons_self c s))

/-- Where removing changes nothing, nothing is recognised. -/
theorem none_of_remove_eq (off : TakesOff after?) {s : Text} (same : remove after? s = s) :
    ∀ w, w <:+ s → w ≠ [] → after? w = none := by
  induction s with
  | nil => exact fun w ends nonempty => absurd (List.suffix_nil.mp ends) nonempty
  | cons c s ih =>
    cases found : after? (c :: s) with
    | some rest =>
      rw [remove_cons_of_some found (off c s rest found).length_le] at same
      have short := ((remove_sublist off rest).trans (off c s rest found).sublist).length_le
      rw [same] at short
      exact absurd short (Nat.not_succ_le_self _)
    | none =>
      rw [remove_cons_of_none found] at same
      intro w ends nonempty
      rcases List.suffix_cons_iff.mp ends with rfl | ends
      · exact found
      · exact ih (List.cons.inj same).2 w ends nonempty

end Shrink
end SvgEdit
