import SvgEdit.Proofs.DecimalLengths

/-!
# Plain numbers

A finite number is written plainly as a literal: digits, with a point and more digits or without. A number that
is not zero has a digit that is not zero, so there is no sign where nothing but zeros follows it.
-/
namespace SvgEdit

/-! ## Digits of a decimal -/

/-- The digits of a decimal that is not zero: the zeros at the end are gone, and another digit is left. -/
theorem Decimal.digits_spec {d : Decimal} (nonzero : d.coefficient ≠ 0) :
    (∀ c ∈ d.digits.1, c.isDigit = true) ∧ ∃ c ∈ d.digits.1, c ≠ '0' := by
  obtain ⟨zeros, whole, all⟩ := Text.exists_dropWhileEnd (· = '0') (Text.ofNat d.coefficient)
  change Text.ofNat d.coefficient = d.digits.1 ++ zeros at whole
  refine ⟨fun c member => ?_, ?_⟩
  · refine isDigit_of_mem_ofNat (n := d.coefficient) ?_
    rw [whole]
    exact List.mem_append_left _ member
  · by_contra none
    have same : Text.ofNat d.coefficient = List.replicate (Text.ofNat d.coefficient).length '0' := by
      refine List.eq_replicate_of_mem fun c member => ?_
      rw [whole] at member
      rcases List.mem_append.mp member with kept | dropped
      · by_contra other
        exact none ⟨c, kept, other⟩
      · exact of_decide_eq_true (all c dropped)
    apply nonzero
    rw [← digitsValue_ofNat d.coefficient, same, digitsValue_zeros]

/-! ## Where the point stands -/

/-- The point stands after the digits and is left out, among them, or before them. -/
theorem positional_cases (digits : Text) (exponent : Int) :
    (∃ zeros, positional digits exponent = digits ++ List.replicate zeros '0') ∨
      (∃ whole fraction, whole ≠ [] ∧ fraction ≠ [] ∧ digits = whole ++ fraction ∧
        positional digits exponent = whole ++ '.' :: fraction) ∨
      ∃ zeros, positional digits exponent = '0' :: '.' :: (List.replicate zeros '0' ++ digits) := by
  by_cases above : 0 ≤ exponent
  · exact .inl ⟨exponent.toNat, by rw [positional, if_pos above]⟩
  · have some : 0 < (-exponent).toNat := by omega
    by_cases inside : (-exponent).toNat < digits.length
    · refine .inr (.inl ⟨_, _, ?_, ?_, (List.take_append_drop (digits.length - (-exponent).toNat) digits).symm, ?_⟩)
      · rw [← List.length_pos_iff, List.length_take]
        omega
      · rw [← List.length_pos_iff, List.length_drop]
        omega
      · simp only [positional, if_neg above, if_pos inside]
    · exact .inr (.inr ⟨(-exponent).toNat - digits.length, by simp only [positional, if_neg above, if_neg inside]⟩)

theorem mem_positional {digits : Text} {c : Char} (member : c ∈ digits) (exponent : Int) :
    c ∈ positional digits exponent := by
  obtain ⟨zeros, written⟩ | ⟨whole, fraction, -, -, rfl, written⟩ | ⟨zeros, written⟩ :=
    positional_cases digits exponent <;> rw [written]
  · exact List.mem_append_left _ member
  · rcases List.mem_append.mp member with before | after
    · exact List.mem_append_left _ before
    · exact List.mem_append_right _ (List.mem_cons_of_mem _ after)
  · exact List.mem_cons_of_mem _ (List.mem_cons_of_mem _ (List.mem_append_right _ member))

theorem isLiteral_positional {digits : Text} (nonempty : digits ≠ []) (all : ∀ c ∈ digits, c.isDigit = true)
    (negative : Bool) (exponent : Int) : IsLiteral (Binary64.signText negative ++ positional digits exponent) := by
  have zero (n : Nat) : ∀ c ∈ List.replicate n '0', c.isDigit = true := by
    intro c member
    rw [List.eq_of_mem_replicate member]
    decide
  obtain ⟨zeros, written⟩ | ⟨whole, fraction, some, more, rfl, written⟩ | ⟨zeros, written⟩ :=
    positional_cases digits exponent <;> rw [written]
  · refine ⟨negative, digits ++ List.replicate zeros '0', [], List.append_ne_nil_of_left_ne_nil nonempty _,
      List.forall_mem_append.mpr ⟨all, zero zeros⟩, List.forall_mem_nil _, ?_⟩
    rw [if_pos rfl, List.append_nil]
  · obtain ⟨before, after⟩ := List.forall_mem_append.mp all
    refine ⟨negative, whole, fraction, some, before, after, ?_⟩
    rw [if_neg more, List.append_assoc]
  · refine ⟨negative, ['0'], List.replicate zeros '0' ++ digits, List.cons_ne_nil _ _, by decide,
      List.forall_mem_append.mpr ⟨zero zeros, all⟩, ?_⟩
    rw [if_neg (List.append_ne_nil_of_right_ne_nil _ nonempty), List.append_assoc]
    rfl

/-! ## Shortest decimals -/

namespace Binary64

variable {steps : Nat}

theorem unitAt_le (nonzero : steps ≠ 0) : unitAt steps ≤ steps :=
  (Nat.pow_le_pow_right (by decide) (Nat.sub_le _ _)).trans (Nat.log2_self_le nonzero)

theorem lowerEnd_pos (nonzero : steps ≠ 0) : 0 < lowerEnd steps := by
  have unit := unitAt_le nonzero
  rw [lowerEnd]
  split <;> omega

/-- Zero does not round to another number. -/
theorem readsBack_zero (nonzero : steps ≠ 0) {den : Nat} (positive : 0 < den) : readsBack steps 0 den = false := by
  have lower : 0 < lowerEnd steps * den := Nat.mul_pos (lowerEnd_pos nonzero) positive
  rw [readsBack]
  split <;> simp [Nat.not_le.mpr lower]

/-- A decimal that rounds to a number other than zero is not zero. -/
theorem coefficient_decimalAt? (nonzero : steps ≠ 0) {tie : TieRule} {exponent : Int} {d : Decimal}
    (found : decimalAt? tie steps exponent = some d) : d.coefficient ≠ 0 := by
  unfold decimalAt? at found
  extract_lets num den value low lowFits highFits fromLow toHigh at found
  -- Of the two neighbours only the lower one can be zero, and it is not taken unless it rounds to the number.
  have lower (fits : lowFits = true) : low ≠ 0 := by
    intro none
    have positive : 0 < den := Nat.pow_pos (by decide)
    change readsBack steps (low * num) den = true at fits
    rw [none, Nat.zero_mul, readsBack_zero nonzero positive] at fits
    cases fits
  have upper : low + 1 ≠ 0 := Nat.succ_ne_zero low
  split at found
  · next both =>
    have kept := lower (Bool.and_eq_true_iff.mp both).1
    split at found
    · obtain rfl := Option.some.inj found
      exact kept
    · split at found
      · obtain rfl := Option.some.inj found
        exact upper
      · cases tie with
        | up =>
          obtain rfl := Option.some.inj found
          exact upper
        | even =>
          obtain rfl := Option.some.inj found
          dsimp only
          split
          · exact kept
          · exact upper
  · split at found
    · next fits =>
      obtain rfl := Option.some.inj found
      exact lower fits
    · split at found
      · obtain rfl := Option.some.inj found
        exact upper
      · cases found

theorem coefficient_shortest (nonzero : steps ≠ 0) (tie : TieRule) : (shortest tie steps).coefficient ≠ 0 := by
  rw [shortest]
  cases found : (List.range 17).findSome? fun (n : Nat) => decimalAt? tie steps (firstPlace steps - n) with
  | none =>
    rw [Option.getD_none, exactDecimal]
    generalize 1074 = n
    exact Nat.mul_ne_zero nonzero (Nat.pow_pos (by decide)).ne'
  | some d =>
    obtain ⟨n, -, here⟩ := List.exists_of_findSome?_eq_some found
    exact coefficient_decimalAt? nonzero here

end Binary64

/-! ## Numerals -/

/-- A literal in which a sign does not stand before zeros only. -/
structure IsNumeral (t : Text) : Prop where
  literal : IsLiteral t
  signed : '-' ∈ t → ∃ c ∈ t, c.isDigit = true ∧ c ≠ '0'

theorem IsNumeral.ne_negativeZero {t : Text} (h : IsNumeral t) : t ≠ "-0".toList := by
  rintro rfl
  obtain ⟨c, member, digit, other⟩ := h.signed (by decide)
  revert c
  decide

/-- What is not zero is written with a digit that is not zero. -/
theorem isNumeral_plain (negative : Bool) {steps : Nat} (nonzero : steps ≠ 0) :
    IsNumeral (Binary64.finite negative steps).plain := by
  obtain ⟨all, c, member, other⟩ := Decimal.digits_spec (Binary64.coefficient_shortest nonzero .up)
  rw [Binary64.plain, if_neg nonzero]
  refine ⟨isLiteral_positional (List.ne_nil_of_mem member) all negative _, fun _ => ⟨c, ?_, all c member, other⟩⟩
  exact List.mem_append_right _ (mem_positional member _)

end SvgEdit
