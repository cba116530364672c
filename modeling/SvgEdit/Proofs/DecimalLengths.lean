import SvgEdit.Proofs.TrimmedDecimals

/-!
# Lengths of rounded decimals

What is written for a decimal has as many digits before the point as the decimal, zeros at the beginning
apart, or no digits after it. So it is not longer exactly if the places that are left have room where the
decimal had digits.
-/
namespace SvgEdit

open SvgEdit.Shrink

namespace Binary64

variable {places steps num den m k c f : Nat} {negative : Bool}

/-! ## Bounds that rounding keeps -/

/-- Rounding does not go beyond a number of 64 bits. -/
theorem nearestSteps_le_of_le (positive : 0 < den) (bits : IsSteps m) (le : num ≤ m * den) :
    nearestSteps num den ≤ m := by
  have near := dist_nearestSteps_le num positive bits
  by_contra greater
  have far := Nat.mul_lt_mul_of_pos_right (Nat.lt_of_not_le greater) positive
  unfold Nat.dist at near
  omega

theorem le_nearestSteps_of_le (positive : 0 < den) (bits : IsSteps m) (le : m * den ≤ num) :
    m ≤ nearestSteps num den := by
  have near := dist_nearestSteps_le num positive bits
  by_contra less
  have far := Nat.mul_lt_mul_of_pos_right (Nat.lt_of_not_le less) positive
  unfold Nat.dist at near
  omega

/-- The nearest number is not farther away than zero. -/
theorem nearestSteps_mul_le (positive : 0 < den) : nearestSteps num den * den ≤ 2 * num := by
  have near := dist_nearestSteps_le num positive isSteps_zero
  unfold Nat.dist at near
  omega

theorem lastPlaces_le (places : Nat) (le : steps ≤ k * one) : lastPlaces places steps ≤ k * 10 ^ places := by
  have above := (nearestEven_lastPlaces places steps).above
  have scaled := Nat.mul_le_mul_right (10 ^ places) le
  have unit := one_pos
  by_contra greater
  have next := Nat.mul_le_mul_right one (Nat.succ_le_of_lt (Nat.lt_of_not_le greater))
  rw [Nat.succ_mul, Nat.mul_right_comm] at next
  omega

theorem le_lastPlaces (places : Nat) (le : k * one ≤ steps) : k * 10 ^ places ≤ lastPlaces places steps := by
  have below := (nearestEven_lastPlaces places steps).below
  have scaled := Nat.mul_le_mul_right (10 ^ places) le
  have unit := one_pos
  by_contra less
  have next := Nat.mul_le_mul_right one (Nat.succ_le_of_lt (Nat.lt_of_not_le less))
  rw [Nat.succ_mul, Nat.mul_right_comm k] at next
  omega

/-- Neighbours around a number of few digits are nearer to each other than its last places. -/
theorem unitAt_mul_lt {n scale : Nat} (low : scale < one) (high : n * scale < 2 ^ 52 * one) :
    unitAt n * scale < one := by
  by_cases few : n.log2 ≤ 52
  · rwa [unitAt, Nat.sub_eq_zero_of_le few, Nat.pow_eq, Nat.pow_zero, Nat.one_mul]
  · have nonzero : n ≠ 0 := by
      rintro rfl
      exact few (by decide)
    have whole : 2 ^ 52 * unitAt n = 2 ^ n.log2 := by
      rw [unitAt, Nat.pow_eq, ← Nat.pow_add, Nat.add_sub_cancel' (Nat.le_of_not_le few)]
    have scaled := Nat.mul_le_mul_right scale (whole.trans_le (Nat.log2_self_le nonzero))
    rw [Nat.mul_assoc] at scaled
    exact Nat.lt_of_mul_lt_mul_left (scaled.trans_lt high)

/-- The last places of a decimal of few digits are written as they were read. -/
theorem lastPlaces_eq_of_few (few : f ≤ places) (low : 10 ^ places < one) (small : c * 10 ^ (places - f) < 2 ^ 52) :
    lastPlaces places (nearestSteps (c * one) (10 ^ f)) = c * 10 ^ (places - f) := by
  have tens : 0 < 10 ^ f := Nat.pow_pos (by decide)
  have nearest := nearestEven_roundHalfEven (c * one) (Nat.mul_pos tens (unitAt_pos (c * one / 10 ^ f)))
  have high : c * one / 10 ^ f * 10 ^ places < 2 ^ 52 * one := calc
    c * one / 10 ^ f * 10 ^ places = c * one / 10 ^ f * 10 ^ f * 10 ^ (places - f) := (scale_pow few _).symm
    _ ≤ c * one * 10 ^ (places - f) := Nat.mul_le_mul_right _ (Nat.div_mul_le_self _ _)
    _ = c * 10 ^ (places - f) * one := Nat.mul_right_comm _ _ _
    _ < 2 ^ 52 * one := Nat.mul_lt_mul_of_pos_right small one_pos
  -- The number is half a unit away from the decimal at most, and that is less than half a last place.
  have near := unitAt_mul_lt low high
  rw [lastPlaces, nearestSteps]
  generalize unitAt (c * one / 10 ^ f) = unit at nearest near
  generalize roundHalfEven (c * one) (10 ^ f * unit) = k at nearest
  have below := Nat.mul_le_mul_right (10 ^ (places - f)) nearest.below
  have above := Nat.mul_le_mul_right (10 ^ (places - f)) nearest.above
  have left : k * (10 ^ f * unit) * 10 ^ (places - f) = k * unit * 10 ^ places := by rw [← scale_pow few]; ring
  have right : c * one * 10 ^ (places - f) = c * 10 ^ (places - f) * one := Nat.mul_right_comm _ _ _
  have apart : 10 ^ f * unit * 10 ^ (places - f) = unit * 10 ^ places := by rw [← scale_pow few]; ring
  rw [Nat.add_mul, Nat.mul_assoc 2, Nat.mul_assoc 2, left, right, apart] at below above
  refine NearestEven.eq_roundHalfEven ?_ one_pos
  constructor <;> omega

theorem five_pow_le : 5 ^ 22 ≤ 2 ^ 53 := by decide

/-- Powers of ten up to the 22nd are exact. -/
theorem isSteps_ten_pow (few : k ≤ 22) : IsSteps (10 ^ k * one) := by
  obtain ⟨e, same⟩ := exists_one_eq
  have factors : 10 ^ k * 2 ^ e = 5 ^ k * 2 ^ (k + e) := by
    rw [Nat.pow_add, ← Nat.mul_assoc, ← Nat.mul_pow]
  rw [same, factors]
  exact isSteps_mul_pow ((Nat.pow_le_pow_right (by decide) few).trans five_pow_le)

/-! ## Decimals that are read -/

/-- The steps of what is read of a decimal with `f` places after the point, `c` counting the last of them. -/
def ReadSteps (c f steps : Nat) : Prop := steps = 0 ∧ c < 10 ^ f ∨ steps = nearestSteps (c * one) (10 ^ f)

theorem lt_ten_pow_length (c : Nat) : c < 10 ^ (Nat.toDigits 10 c).length :=
  (Nat.length_toDigits_le_iff (by decide) Nat.length_toDigits_pos).mp (le_refl _)

theorem ten_pow_le {n : Nat} (positive : 0 < n) (less : n < (Nat.toDigits 10 c).length) : 10 ^ n ≤ c := by
  by_contra small
  exact Nat.not_le.mpr less ((Nat.length_toDigits_le_iff (by decide) positive).mpr (Nat.lt_of_not_le small))

/-- A decimal is read as a finite number, unless it is far too great. -/
theorem ofDecimal_cases (negative : Bool) (c f : Nat) :
    ofDecimal negative c (-f) = infinite negative ∨
      ∃ steps, ofDecimal negative c (-f) = finite negative steps ∧ ReadSteps c f steps := by
  rw [ofDecimal_eq]
  split
  · next small =>
    refine .inr ⟨0, rfl, .inl ⟨rfl, ?_⟩⟩
    rcases small with rfl | small
    · exact Nat.pow_pos (by decide)
    · exact (lt_ten_pow_length c).trans_le (Nat.pow_le_pow_right (by decide) (by omega))
  · split
    · exact .inl rfl
    · rw [ofSteps_eq]
      split
      · exact .inr ⟨_, rfl, .inr rfl⟩
      · exact .inl rfl

theorem ten_pow_le_greatest : 10 ^ 308 * one ≤ (2 ^ 53 - 1) * 2 ^ 2045 ∧ (2 ^ 53 - 1) * 2 ^ 2045 < overflow := by
  decide +kernel

/-- Numbers with 308 digits are not beyond the greatest number of 64 bits. -/
theorem exists_greatest {n : Nat} (few : n ≤ 308) : ∃ m, IsSteps m ∧ 10 ^ n * one ≤ m ∧ m < overflow := by
  obtain ⟨most, least⟩ := ten_pow_le_greatest
  refine ⟨_, isSteps_mul_pow (Nat.sub_le _ _), ?_, least⟩
  generalize 308 = far at few most
  exact (Nat.mul_le_mul_right one (Nat.pow_le_pow_right (by decide) few)).trans most

/-- A decimal with 308 digits before the point at most is read as a finite number. -/
theorem ofDecimal_ne_infinite {n : Nat} (few : n ≤ 308) (small : c < 10 ^ (n + f)) :
    ofDecimal negative c (-f) ≠ infinite negative := by
  have tens : 0 < 10 ^ f := Nat.pow_pos (by decide)
  rw [ofDecimal_eq]
  split
  · exact fun same => by cases same
  · next great =>
    have digits : (Nat.toDigits 10 c).length ≤ n + f := by
      refine (Nat.length_toDigits_le_iff (by decide) (Nat.pos_of_ne_zero fun none => great (.inl ?_))).mpr small
      rw [none, Nat.pow_zero] at small
      exact Nat.lt_one_iff.mp small
    obtain ⟨greatest, bits, most, least⟩ := exists_greatest few
    have bound : c * one ≤ greatest * 10 ^ f := calc
      c * one ≤ 10 ^ (n + f) * one := Nat.mul_le_mul_right _ small.le
      _ = 10 ^ n * one * 10 ^ f := by rw [Nat.pow_add, Nat.mul_right_comm]
      _ ≤ greatest * 10 ^ f := Nat.mul_le_mul_right _ most
    rw [if_neg (by omega), ofSteps_eq, if_pos ((nearestSteps_le_of_le tens bits bound).trans_lt least)]
    exact fun same => by cases same

namespace ReadSteps

theorem le (h : ReadSteps c f steps) (bits : IsSteps (k * one)) (le : c ≤ k * 10 ^ f) : steps ≤ k * one := by
  rcases h with ⟨rfl, -⟩ | rfl
  · exact Nat.zero_le _
  · refine nearestSteps_le_of_le (Nat.pow_pos (by decide)) bits ?_
    rw [Nat.mul_right_comm]
    exact Nat.mul_le_mul_right one le

theorem ge (h : ReadSteps c f steps) (bits : IsSteps (k * one)) (ge : k * 10 ^ f ≤ c) : k * one ≤ steps := by
  rcases h with ⟨-, small⟩ | rfl
  · have none : k = 0 := by
      by_contra some
      exact absurd (Nat.le_mul_of_pos_left (10 ^ f) (Nat.pos_of_ne_zero some)) (Nat.not_le.mpr (ge.trans_lt small))
    rw [none, Nat.zero_mul]
    exact Nat.zero_le _
  · refine le_nearestSteps_of_le (Nat.pow_pos (by decide)) bits ?_
    rw [Nat.mul_right_comm]
    exact Nat.mul_le_mul_right one ge

theorem le_double (h : ReadSteps c f steps) (le : c ≤ k * 10 ^ f) : steps ≤ 2 * k * one := by
  rcases h with ⟨rfl, -⟩ | rfl
  · exact Nat.zero_le _
  · have tens : 0 < 10 ^ f := Nat.pow_pos (by decide)
    refine Nat.le_of_mul_le_mul_right (c := 10 ^ f) ?_ tens
    calc nearestSteps (c * one) (10 ^ f) * 10 ^ f ≤ 2 * (c * one) := nearestSteps_mul_le tens
      _ ≤ 2 * (k * 10 ^ f * one) := Nat.mul_le_mul_left 2 (Nat.mul_le_mul_right one le)
      _ = 2 * k * one * 10 ^ f := by ring

theorem isSteps (h : ReadSteps c f steps) : IsSteps steps := by
  rcases h with ⟨rfl, -⟩ | rfl
  · exact isSteps_zero
  · exact isSteps_nearestSteps _ (Nat.pow_pos (by decide))

end ReadSteps
end Binary64

/-! ## Digits of a decimal -/

open Binary64

namespace DecimalParts

variable {d : DecimalParts} {places steps k : Nat} {whole shown : Text}

/-- The number that the decimal is read as. -/
def value (d : DecimalParts) : Binary64 := ofDecimal d.negative d.coefficient (-d.fraction.length)

/-- The count of digits before the point, zeros at the beginning apart. -/
def magnitude (d : DecimalParts) : Nat := (Nat.toDigits 10 (digitsValue d.whole)).length

/-- The count of places for which there is room in a text as long. -/
def room (d : DecimalParts) : Nat := d.whole.length - d.magnitude + d.fraction.length

/--
The decimal is read as a finite number that is less than the last place, or that has nothing but zeros in the
places for which there is no room.
-/
def Fits (places : Nat) (d : DecimalParts) : Prop :=
  ∃ steps, d.value = finite d.negative steps ∧
    (d.value.magnitudeLt (tenthPower places) = true ∨ 10 ^ (places - d.room) ∣ lastPlaces places steps)

theorem magnitude_pos (d : DecimalParts) : 0 < d.magnitude := Nat.length_toDigits_pos

namespace Proper

theorem magnitude_le (proper : d.Proper) : d.magnitude ≤ d.whole.length :=
  (Nat.length_toDigits_le_iff (by decide) (List.length_pos_iff.mpr proper.whole)).mpr (digitsValue_lt proper.digits)

theorem coefficient_lt (proper : d.Proper) : d.coefficient < 10 ^ d.magnitude * 10 ^ d.fraction.length := by
  have whole := Nat.mul_le_mul_right (10 ^ d.fraction.length)
    (Nat.succ_le_of_lt (lt_ten_pow_length (digitsValue d.whole)))
  have fraction := digitsValue_lt proper.digits'
  rw [coefficient, digitsValue_append]
  rw [Nat.succ_mul] at whole
  exact (Nat.add_lt_add_left fraction _).trans_le whole

theorem le_coefficient (positive : 0 < k) (less : k < d.magnitude) : 10 ^ k * 10 ^ d.fraction.length ≤ d.coefficient := by
  rw [coefficient, digitsValue_append]
  exact (Nat.mul_le_mul_right _ (ten_pow_le positive less)).trans (Nat.le_add_right _ _)

/-- A whole number has one more digit than the decimal it was rounded from at most. -/
theorem length_whole_le (proper : d.Proper) (read : ReadSteps d.coefficient d.fraction.length steps)
    (trimmed : TrimmedDigits places (lastPlaces places steps) whole shown) : whole.length ≤ d.magnitude + 1 := by
  refine (trimmed.short _ (Nat.succ_pos _)).mpr ?_
  have most := lastPlaces_le places (read.le_double proper.coefficient_lt.le)
  have some : 0 < 10 ^ d.magnitude * 10 ^ places := Nat.mul_pos (Nat.pow_pos (by decide)) (Nat.pow_pos (by decide))
  rw [Nat.pow_add, Nat.pow_succ]
  rw [Nat.mul_assoc] at most
  rw [Nat.mul_right_comm]
  omega

/-- From 2^53 on numbers have no fraction, and 10^16 is greater. -/
theorem magnitude_le_of_fraction (read : ReadSteps d.coefficient d.fraction.length steps)
    (fraction : ¬ 10 ^ places ∣ lastPlaces places steps) : d.magnitude ≤ 16 := by
  by_contra many
  have least := read.ge (isSteps_ten_pow (by decide)) (le_coefficient (k := 16) (by decide) (Nat.lt_of_not_le many))
  have nearest := nearestEven_lastPlaces places steps
  obtain ⟨e, same⟩ := exists_one_eq
  rw [same] at least nearest
  have small := lt_of_fraction read.isSteps nearest fraction
  rw [Nat.pow_add, Nat.mul_comm (2 ^ e)] at small
  exact absurd (Nat.lt_of_mul_lt_mul_right (least.trans_lt small)) (by decide)

/-- A number with a fraction has as many digits before the point as the decimal it was rounded from. -/
theorem length_whole (proper : d.Proper) (read : ReadSteps d.coefficient d.fraction.length steps)
    (trimmed : TrimmedDigits places (lastPlaces places steps) whole shown) (nonempty : shown ≠ []) :
    whole.length = d.magnitude := by
  have fraction := trimmed.not_dvd nonempty
  -- So the powers of ten around the decimal are exact, and rounding does not go beyond them.
  have few := magnitude_le_of_fraction read fraction
  refine Nat.le_antisymm ?_ ?_
  · have most := lastPlaces_le places (read.le (isSteps_ten_pow (by omega)) proper.coefficient_lt.le)
    refine (trimmed.short _ d.magnitude_pos).mpr ?_
    rw [Nat.pow_add]
    refine Nat.lt_of_le_of_ne most fun same => fraction ?_
    rw [same]
    exact Nat.dvd_mul_left _ _
  · rcases Nat.eq_or_lt_of_le (Nat.succ_le_of_lt d.magnitude_pos) with single | many
    · rw [← single]
      exact List.length_pos_iff.mpr trimmed.nonempty
    · have least := le_lastPlaces places (read.ge (isSteps_ten_pow (k := d.magnitude - 1) (by omega))
        (le_coefficient (by omega) (by omega)))
      by_contra less
      have small := (trimmed.short (d.magnitude - 1) (by omega)).mp (by omega)
      rw [Nat.pow_add] at small
      exact absurd small (Nat.not_lt.mpr least)

end Proper
end DecimalParts

/-! ## Literals -/

/-- Digits, with a point and more digits or without, after a minus sign if there is one. -/
def IsLiteral (t : Text) : Prop :=
  ∃ (negative : Bool) (whole fraction : Text), whole ≠ [] ∧ (∀ c ∈ whole, c.isDigit = true) ∧
    (∀ c ∈ fraction, c.isDigit = true) ∧
      t = signText negative ++ whole ++ if fraction = [] then [] else '.' :: fraction

theorem IsLiteral.parts {t : Text} (h : IsLiteral t) : ∀ c ∈ t, c.isDigit = true ∨ c = '-' ∨ c = '.' := by
  obtain ⟨negative, whole, fraction, -, digits, digits', rfl⟩ := h
  intro c member
  rcases List.mem_append.mp member with member | member
  · rcases List.mem_append.mp member with sign | member
    · cases negative
      · exact absurd sign List.not_mem_nil
      · exact .inr (.inl (List.mem_singleton.mp sign))
    · exact .inl (digits c member)
  · split at member
    · exact absurd member List.not_mem_nil
    · rcases List.mem_cons.mp member with rfl | member
      · exact .inr (.inr rfl)
      · exact .inl (digits' c member)

namespace Shrink

variable {places steps : Nat} {negative : Bool}

theorem isLiteral_roundedText_finite : IsLiteral (roundedText places (finite negative steps)) := by
  by_cases small : (finite negative steps).magnitudeLt (tenthPower places) = true
  · rw [roundedText, if_pos small]
    exact ⟨false, ['0'], [], by decide⟩
  · obtain ⟨whole, shown, trimmed, text⟩ := exists_roundedText_finite (Bool.of_not_eq_true small)
    exact ⟨negative, whole, shown, trimmed.nonempty, trimmed.digits, trimmed.digits', text⟩

theorem not_isLiteral_roundedText_infinite : ¬ IsLiteral (roundedText places (infinite negative)) := by
  intro literal
  have member : 'i' ∈ roundedText places (infinite negative) := by
    have great : (infinite negative).magnitudeLt (tenthPower places) = false := by cases tenthPower places <;> rfl
    rw [roundedText, great, fixed]
    cases negative <;> decide
  exact absurd (literal.parts 'i' member) (by decide)

end Shrink

namespace DecimalParts.Proper

variable {d : DecimalParts} {places steps : Nat}

/-- What is written is not longer exactly if there is room for its places. -/
theorem length_le_iff (proper : d.Proper) (read : ReadSteps d.coefficient d.fraction.length steps)
    (great : (finite d.negative steps).magnitudeLt (tenthPower places) = false) :
    (roundedText places (finite d.negative steps)).length ≤ d.text.length ↔
      10 ^ (places - d.room) ∣ lastPlaces places steps := by
  obtain ⟨whole, shown, trimmed, text⟩ := exists_roundedText_finite great
  have fits := proper.magnitude_le
  have most := proper.length_whole_le read trimmed
  have fraction := List.length_pos_iff.mpr proper.fraction
  rw [← trimmed.length_le_iff, text]
  simp only [DecimalParts.text, unsigned, room, List.length_append, List.length_cons]
  by_cases none : shown = []
  · simp only [none, if_true, List.length_nil, Nat.zero_le, iff_true]
    omega
  · have same := proper.length_whole read trimmed none
    rw [if_neg none, List.length_cons]
    omega

/-- What is written for a decimal is a literal that is not longer exactly if the decimal fits. -/
theorem fits_iff (proper : d.Proper) :
    IsLiteral (roundedText places d.value) ∧ (roundedText places d.value).length ≤ d.text.length ↔ d.Fits places := by
  rcases ofDecimal_cases d.negative d.coefficient d.fraction.length with infinite | ⟨steps, finite, read⟩
  · rw [← value] at infinite
    constructor
    · rintro ⟨literal, -⟩
      rw [infinite] at literal
      exact absurd literal not_isLiteral_roundedText_infinite
    · rintro ⟨steps, finite, -⟩
      rw [infinite] at finite
      cases finite
  · rw [← value] at finite
    have known : d.Fits places ↔ d.value.magnitudeLt (tenthPower places) = true ∨
        10 ^ (places - d.room) ∣ lastPlaces places steps := by
      constructor
      · rintro ⟨steps', finite', fits⟩
        obtain ⟨-, rfl⟩ := Binary64.finite.inj (finite.symm.trans finite')
        exact fits
      · exact fun fits => ⟨steps, finite, fits⟩
    rw [known, finite]
    by_cases small : (Binary64.finite d.negative steps).magnitudeLt (tenthPower places) = true
    · have shorter : (roundedText places (Binary64.finite d.negative steps)).length ≤ d.text.length := by
        rw [roundedText, if_pos small]
        exact (isExact_iff.mpr ⟨d, proper, rfl⟩).length.le
      exact ⟨fun _ => .inl small, fun _ => ⟨isLiteral_roundedText_finite, shorter⟩⟩
    · rw [proper.length_le_iff read (Bool.of_not_eq_true small)]
      exact ⟨fun fits => .inr fits.2, fun fits => ⟨isLiteral_roundedText_finite, fits.resolve_left small⟩⟩

theorem ten_pow_lt_one : 10 ^ 15 < one := by decide +kernel

theorem ten_pow_lt : 10 ^ 15 < 2 ^ 52 := by decide

/-- Decimals with as many places, and decimals of few digits, fit. -/
theorem fits (proper : d.Proper) (finite : d.magnitude ≤ 308)
    (few : places ≤ d.fraction.length ∨ d.magnitude + places ≤ 15) : d.Fits places := by
  have small := proper.coefficient_lt
  rcases ofDecimal_cases d.negative d.coefficient d.fraction.length with infinite | ⟨steps, value, read⟩
  · exact absurd infinite (ofDecimal_ne_infinite finite (by rwa [Nat.pow_add]))
  · refine ⟨steps, value, .inr ?_⟩
    by_cases all : places ≤ d.fraction.length
    · have none : places - d.room = 0 := by
        unfold room
        omega
      rw [none, Nat.pow_zero]
      exact one_dvd _
    · have digits := few.resolve_left all
      have most : d.coefficient * 10 ^ (places - d.fraction.length) < 2 ^ 52 := calc
        _ < 10 ^ d.magnitude * 10 ^ d.fraction.length * 10 ^ (places - d.fraction.length) :=
          Nat.mul_lt_mul_of_pos_right small (Nat.pow_pos (by decide))
        _ = 10 ^ (d.magnitude + places) := by rw [scale_pow (Nat.le_of_not_le all), Nat.pow_add]
        _ ≤ 10 ^ 15 := Nat.pow_le_pow_right (by decide) digits
        _ < 2 ^ 52 := ten_pow_lt
      have low : 10 ^ places < one :=
        (Nat.pow_le_pow_right (by decide) (by omega : places ≤ 15)).trans_lt ten_pow_lt_one
      rcases read with ⟨rfl, -⟩ | rfl
      · have nothing : lastPlaces places 0 ≤ 0 * 10 ^ places := lastPlaces_le places (Nat.zero_le _)
        rw [Nat.zero_mul] at nothing
        rw [Nat.le_zero.mp nothing]
        exact dvd_zero _
      · rw [lastPlaces_eq_of_few (Nat.le_of_not_le all) low most]
        refine Dvd.dvd.mul_left (Nat.pow_dvd_pow 10 ?_) _
        unfold room
        omega

end DecimalParts.Proper
end SvgEdit
