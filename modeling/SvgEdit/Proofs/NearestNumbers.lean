import Mathlib
import SvgEdit.Number.Notation
import SvgEdit.Number.Reading

/-!
# Nearest numbers

Of all numbers of 64 bits, none is nearer to a ratio than the one it is rounded to. So what is written with a
count of places, and read again, is written with these places as before.
-/
namespace SvgEdit

/-! ## Rounding to whole numbers -/

/-- A whole number is one half away from a ratio at most, and even if it is as far as that. -/
structure NearestEven (num den k : Nat) : Prop where
  below : 2 * num ≤ 2 * (k * den) + den
  above : 2 * (k * den) ≤ 2 * num + den
  tie : 2 * num = 2 * (k * den) + den ∨ 2 * (k * den) = 2 * num + den → k % 2 = 0

theorem nearestEven_roundHalfEven (num : Nat) {den : Nat} (positive : 0 < den) :
    NearestEven num den (roundHalfEven num den) := by
  have whole := Nat.div_add_mod num den
  have rest := Nat.mod_lt num positive
  have next := Nat.succ_mul (num / den) den
  rw [Nat.mul_comm] at whole
  unfold roundHalfEven
  dsimp only
  split
  · constructor <;> omega
  · split
    · constructor <;> rw [← Nat.succ_eq_add_one, next] <;> omega
    · split
      · constructor <;> omega
      · constructor <;> rw [← Nat.succ_eq_add_one, next] <;> omega

namespace NearestEven

variable {num den k l : Nat}

theorem not_lt (h : NearestEven num den k) (h' : NearestEven num den l) (positive : 0 < den) : ¬ k < l := by
  intro less
  obtain ⟨below, above, tie⟩ := h
  obtain ⟨below', above', tie'⟩ := h'
  have far : (k + 1) * den ≤ l * den := Nat.mul_le_mul_right den less
  have next : (k + 1) * den = k * den + den := Nat.succ_mul k den
  have same : l * den = (k + 1) * den := by omega
  have neighbour := Nat.eq_of_mul_eq_mul_right positive same
  omega

theorem eq_roundHalfEven (h : NearestEven num den k) (positive : 0 < den) : roundHalfEven num den = k := by
  have nearest := nearestEven_roundHalfEven num positive
  have one := h.not_lt nearest positive
  have other := nearest.not_lt h positive
  omega

/-- No other whole number is nearer. -/
theorem dist_le (h : NearestEven num den k) (j : Nat) : Nat.dist (k * den) num ≤ Nat.dist (j * den) num := by
  obtain ⟨below, above, -⟩ := h
  unfold Nat.dist
  rcases Nat.lt_trichotomy j k with less | rfl | greater
  · have far : (j + 1) * den ≤ k * den := Nat.mul_le_mul_right den less
    rw [Nat.succ_mul] at far
    omega
  · exact le_refl _
  · have far : (k + 1) * den ≤ j * den := Nat.mul_le_mul_right den greater
    rw [Nat.succ_mul] at far
    omega

/-- What is not farther away than the number that was rounded is rounded to the same one. -/
theorem of_dist_le {num' : Nat} (h : NearestEven num den k) (near : Nat.dist num' (k * den) ≤ Nat.dist num (k * den)) :
    NearestEven num' den k := by
  obtain ⟨below, above, tie⟩ := h
  unfold Nat.dist at near
  constructor <;> omega

end NearestEven

namespace Binary64

/-! ## Counts of steps -/

/-- A number of 64 bits has that many steps: beyond 53 bits there are zeros only. -/
def IsSteps (steps : Nat) : Prop := unitAt steps ∣ steps

theorem unitAt_dvd_of_le {m n : Nat} (le : m.log2 ≤ n.log2) : unitAt m ∣ unitAt n :=
  Nat.pow_dvd_pow 2 (by omega)

theorem unitAt_pos (n : Nat) : 0 < unitAt n := Nat.pow_pos (by decide)

theorem isSteps_zero : IsSteps 0 := dvd_zero _

/-- The steps of the number nearest to a ratio of steps. -/
def nearestSteps (num den : Nat) : Nat := roundHalfEven num (den * unitAt (num / den)) * unitAt (num / den)

theorem ofSteps_eq (negative : Bool) (num den : Nat) :
    ofSteps negative num den =
      if nearestSteps num den < overflow then finite negative (nearestSteps num den) else infinite negative := rfl

/-- The ratio has 53 bits before the unit at most. -/
theorem lt_of_unitAt (num : Nat) {den : Nat} (positive : 0 < den) : num < 2 ^ 53 * (den * unitAt (num / den)) := by
  have bits : num / den < 2 ^ 53 * unitAt (num / den) := by
    have log := Nat.lt_log2_self (n := num / den)
    refine Nat.lt_of_lt_of_le log ?_
    rw [unitAt, Nat.pow_eq, ← Nat.pow_add]
    exact Nat.pow_le_pow_right (by decide) (by omega)
  have scaled := (Nat.div_lt_iff_lt_mul positive).mp bits
  rwa [Nat.mul_assoc, Nat.mul_comm (unitAt _)] at scaled

theorem isSteps_mul_pow {k e : Nat} (few : k ≤ 2 ^ 53) : IsSteps (k * 2 ^ e) := by
  by_cases zero : k = 0
  · rw [zero, Nat.zero_mul]
    exact isSteps_zero
  · have nonzero : k * 2 ^ e ≠ 0 := Nat.mul_ne_zero zero (Nat.two_pow_pos e).ne'
    rcases Nat.lt_or_eq_of_le few with less | rfl
    · have bits : (k * 2 ^ e).log2 < 53 + e := by
        rw [Nat.log2_lt nonzero, Nat.pow_add]
        exact Nat.mul_lt_mul_of_pos_right less (Nat.two_pow_pos e)
      exact (Nat.pow_dvd_pow 2 (by omega)).trans (Nat.dvd_mul_left (2 ^ e) k)
    · rw [← Nat.pow_add, IsSteps, unitAt, Nat.log2_two_pow]
      exact Nat.pow_dvd_pow 2 (by omega)

theorem isSteps_nearestSteps (num : Nat) {den : Nat} (positive : 0 < den) : IsSteps (nearestSteps num den) := by
  have unitPositive := Nat.mul_pos positive (unitAt_pos (num / den))
  have nearest := nearestEven_roundHalfEven num unitPositive
  have bits := lt_of_unitAt num positive
  refine isSteps_mul_pow (Nat.le_of_lt_succ (Nat.lt_of_mul_lt_mul_right (a := den * unitAt (num / den)) ?_))
  have above := nearest.above
  rw [Nat.succ_mul]
  omega

/-- No number is nearer to a ratio than the one it is rounded to. -/
theorem dist_nearestSteps_le (num : Nat) {den m : Nat} (positive : 0 < den) (steps : IsSteps m) :
    Nat.dist (nearestSteps num den * den) num ≤ Nat.dist (m * den) num := by
  have unitPositive := Nat.mul_pos positive (unitAt_pos (num / den))
  have nearest := nearestEven_roundHalfEven num unitPositive
  have regroup (k : Nat) : k * (den * unitAt (num / den)) = k * unitAt (num / den) * den := by ring
  by_cases multiple : unitAt (num / den) ∣ m
  · obtain ⟨j, rfl⟩ := multiple
    have least := nearest.dist_le j
    rwa [regroup, regroup, Nat.mul_comm j] at least
  · -- The number is below the power of two with which the ratio begins, and that is no farther away.
    have bits : 52 ≤ (num / den).log2 := by
      by_contra few
      rw [unitAt, Nat.sub_eq_zero_of_le (Nat.le_of_not_le few)] at multiple
      exact multiple (one_dvd m)
    have below : m < 2 ^ (num / den).log2 := by
      by_contra greater
      have zero : m ≠ 0 := by
        rintro rfl
        exact multiple (dvd_zero _)
      exact multiple ((unitAt_dvd_of_le ((Nat.le_log2 zero).mpr (Nat.le_of_not_lt greater))).trans steps)
    have nonzero : num / den ≠ 0 := by
      intro zero
      rw [zero] at bits
      exact absurd bits (by decide)
    have first : 2 ^ (num / den).log2 * den ≤ num :=
      (Nat.le_div_iff_mul_le positive).mp (Nat.log2_self_le nonzero)
    have least := nearest.dist_le (2 ^ 52)
    have whole : 2 ^ 52 * unitAt (num / den) = 2 ^ (num / den).log2 := by
      rw [unitAt, Nat.pow_eq, ← Nat.pow_add, Nat.add_sub_cancel' bits]
    have less : m * den ≤ 2 ^ (num / den).log2 * den := Nat.mul_le_mul_right den below.le
    rw [regroup, regroup, whole] at least
    unfold Nat.dist at least ⊢
    rw [nearestSteps]
    omega

/-! ## Rounding again -/

/-- The last places that are written of a number with a given count of places. -/
def lastPlaces (places steps : Nat) : Nat := roundHalfEven (steps * 10 ^ places) one

/-- One is a power of two; the exponent does not matter, and would slow down every step if it were known. -/
theorem exists_one_eq : ∃ e, one = 2 ^ e := by
  unfold one
  generalize 1074 = e
  exact ⟨e, Nat.pow_eq⟩

theorem one_pos : 0 < one := by
  obtain ⟨e, same⟩ := exists_one_eq
  rw [same]
  exact Nat.two_pow_pos e

theorem nearestEven_lastPlaces (places steps : Nat) : NearestEven (steps * 10 ^ places) one (lastPlaces places steps) :=
  nearestEven_roundHalfEven _ one_pos

variable {places steps coefficient shown : Nat}

theorem scale_pow (few : shown ≤ places) (n : Nat) : n * 10 ^ shown * 10 ^ (places - shown) = n * 10 ^ places := by
  rw [Nat.mul_assoc, pow_mul_pow_sub 10 few]

/-- The number that is read from what is written of another one is written alike. -/
theorem lastPlaces_nearestSteps (isSteps : IsSteps steps) (few : shown ≤ places)
    (written : coefficient * 10 ^ (places - shown) = lastPlaces places steps) :
    lastPlaces places (nearestSteps (coefficient * one) (10 ^ shown)) = lastPlaces places steps := by
  have near := dist_nearestSteps_le (coefficient * one) (Nat.pow_pos (n := shown) (by decide : 0 < 10)) isSteps
  have scaled := Nat.mul_le_mul_right (10 ^ (places - shown)) near
  rw [← Nat.dist_mul_right, ← Nat.dist_mul_right, scale_pow few, scale_pow few, Nat.mul_right_comm, written] at scaled
  exact ((nearestEven_lastPlaces places steps).of_dist_le scaled).eq_roundHalfEven one_pos

theorem two_pow_dvd_of_le {e : Nat} (isSteps : IsSteps steps) (great : 2 ^ (e + 53) ≤ steps) : 2 ^ e ∣ steps := by
  have zero : steps ≠ 0 := by
    rintro rfl
    exact absurd great (Nat.not_le.mpr (Nat.two_pow_pos _))
  have bits := (Nat.le_log2 zero).mpr great
  exact (Nat.pow_dvd_pow 2 (by omega)).trans isSteps

/-- Only a number that is not too great has a fraction. -/
theorem lt_of_fraction {e rounded : Nat} (isSteps : IsSteps steps)
    (nearest : NearestEven (steps * 10 ^ places) (2 ^ e) rounded)
    (fraction : ¬ 10 ^ places ∣ rounded) : steps < 2 ^ (e + 53) := by
  by_contra great
  obtain ⟨n, rfl⟩ := two_pow_dvd_of_le isSteps (Nat.le_of_not_lt great)
  have positive := Nat.two_pow_pos e
  have exact : NearestEven (2 ^ e * n * 10 ^ places) (2 ^ e) (n * 10 ^ places) := by
    have same : 2 ^ e * n * 10 ^ places = n * 10 ^ places * 2 ^ e := by ring
    rw [same]
    constructor <;> omega
  refine fraction ⟨n, ?_⟩
  rw [← nearest.eq_roundHalfEven positive, exact.eq_roundHalfEven positive, Nat.mul_comm]

theorem three_mul_one_le : 3 * one ≤ 2 * 10 ^ 400 := by decide +kernel

theorem le_overflow : (2 ^ 53 + 1) * one ≤ overflow := by decide +kernel

theorem two_pow_le : 2 ^ 54 ≤ 10 ^ 400 := by decide +kernel

/-- What is written of a number with a fraction does not have far too few digits. -/
theorem le_length_toDigits {e rounded far : Nat} (nearest : NearestEven (steps * 10 ^ places) (2 ^ e) rounded)
    (few : shown ≤ places) (written : coefficient * 10 ^ (places - shown) = rounded) (nonzero : rounded ≠ 0)
    (bound : 3 * 2 ^ e ≤ 2 * 10 ^ far) : shown ≤ (Nat.toDigits 10 coefficient).length + far := by
  have tens : 0 < 10 ^ (places - shown) := Nat.pow_pos (by decide)
  have unit := Nat.two_pow_pos e
  have units : 2 ^ e ≤ rounded * 2 ^ e := Nat.le_mul_of_pos_left _ (Nat.pos_of_ne_zero nonzero)
  have above := nearest.above
  have some : steps ≠ 0 := by
    rintro rfl
    rw [Nat.zero_mul] at above
    omega
  have places' : 10 ^ places ≤ steps * 10 ^ places := Nat.le_mul_of_pos_left _ (Nat.pos_of_ne_zero some)
  have below := nearest.below
  have bigger : 2 * 10 ^ places ≤ 3 * (rounded * 2 ^ e) := by omega
  have scaled : 10 ^ shown * (2 * 10 ^ (places - shown)) ≤ coefficient * 10 ^ far * (2 * 10 ^ (places - shown)) := calc
    _ = 2 * 10 ^ places := by rw [← pow_mul_pow_sub 10 few]; ring
    _ ≤ 3 * (rounded * 2 ^ e) := bigger
    _ = coefficient * 10 ^ (places - shown) * (3 * 2 ^ e) := by rw [← written]; ring
    _ ≤ coefficient * 10 ^ (places - shown) * (2 * 10 ^ far) := Nat.mul_le_mul_left _ bound
    _ = coefficient * 10 ^ far * (2 * 10 ^ (places - shown)) := by ring
  have low := Nat.le_of_mul_le_mul_right scaled (by omega)
  have digits := (Nat.length_toDigits_le_iff (by decide) Nat.length_toDigits_pos).mp
    (le_refl (Nat.toDigits 10 coefficient).length)
  have powers := Nat.lt_of_le_of_lt low (Nat.mul_lt_mul_of_pos_right digits (Nat.pow_pos (by decide)))
  rw [← Nat.pow_add] at powers
  exact ((Nat.pow_lt_pow_iff_right (by decide)).mp powers).le

/-- What is written of a number that is not too great does not have far too many digits. -/
theorem length_toDigits_le {e rounded far : Nat} (nearest : NearestEven (steps * 10 ^ places) (2 ^ e) rounded)
    (few : shown ≤ places) (written : coefficient * 10 ^ (places - shown) = rounded) (small : steps < 2 ^ (e + 53))
    (bound : 2 ^ 54 ≤ 10 ^ far) (positive : 0 < far) : (Nat.toDigits 10 coefficient).length ≤ far + shown := by
  rw [Nat.length_toDigits_le_iff (by decide) (Nat.add_pos_left positive shown), Nat.pow_add]
  by_contra greater
  have unit := Nat.two_pow_pos e
  have total : 0 < 10 ^ places * 2 ^ e := Nat.mul_pos (Nat.pow_pos (by decide)) unit
  have least : 10 ^ far * (10 ^ places * 2 ^ e) ≤ rounded * 2 ^ e := calc
    _ = 10 ^ far * 10 ^ shown * 10 ^ (places - shown) * 2 ^ e := by rw [← pow_mul_pow_sub 10 few]; ring
    _ ≤ coefficient * 10 ^ (places - shown) * 2 ^ e :=
      Nat.mul_le_mul_right _ (Nat.mul_le_mul_right _ (Nat.le_of_not_lt greater))
    _ = rounded * 2 ^ e := by rw [written]
  have most : steps * 10 ^ places ≤ 2 ^ 53 * (10 ^ places * 2 ^ e) := calc
    _ ≤ 2 ^ (e + 53) * 10 ^ places := Nat.mul_le_mul_right _ small.le
    _ = 2 ^ 53 * (10 ^ places * 2 ^ e) := by ring
  have rest : 2 ^ e ≤ 10 ^ places * 2 ^ e := Nat.le_mul_of_pos_left _ (Nat.pow_pos (by decide))
  have scaled := Nat.mul_le_mul_right (10 ^ places * 2 ^ e) bound
  have below := nearest.below
  have above := nearest.above
  omega

/-- Numbers that are written alike are not far from each other. -/
theorem le_add_of_nearestEven {m n unit rounded scale : Nat} (h : NearestEven (m * scale) unit rounded)
    (h' : NearestEven (n * scale) unit rounded) (positive : 0 < scale) : n ≤ m + unit := by
  have above := h.above
  have below := h'.below
  have unit' : unit ≤ unit * scale := Nat.le_mul_of_pos_right _ positive
  have scaled : n * scale ≤ (m + unit) * scale := by
    rw [Nat.add_mul]
    omega
  exact Nat.le_of_mul_le_mul_right scaled positive

/-- How a decimal with places after the point is read. -/
theorem ofDecimal_eq (negative : Bool) (coefficient shown : Nat) :
    ofDecimal negative coefficient (-shown) =
      if coefficient = 0 ∨ (Nat.toDigits 10 coefficient).length + 400 < shown then finite negative 0
      else if shown + 400 < (Nat.toDigits 10 coefficient).length then infinite negative
      else ofSteps negative (coefficient * one) (10 ^ shown) := by
  have low : -(shown : Int) + (Nat.toDigits 10 coefficient).length < -400 ↔
      (Nat.toDigits 10 coefficient).length + 400 < shown := by omega
  have high : 400 < -(shown : Int) + (Nat.toDigits 10 coefficient).length ↔
      shown + 400 < (Nat.toDigits 10 coefficient).length := by omega
  have exponent : (-(shown : Int)).toNat = 0 := by omega
  simp only [ofDecimal, ofRatio, low, high, exponent, Int.neg_neg, Int.toNat_natCast, Nat.pow_eq, Nat.pow_zero,
    Nat.mul_one]

/-- What is written of a number with a fraction is read as the nearest number. -/
theorem ofDecimal_eq_nearestSteps (isSteps : IsSteps steps) (few : shown ≤ places)
    (written : coefficient * 10 ^ (places - shown) = lastPlaces places steps)
    (fraction : ¬ 10 ^ places ∣ lastPlaces places steps) (negative : Bool) :
    ofDecimal negative coefficient (-shown) = finite negative (nearestSteps (coefficient * one) (10 ^ shown)) := by
  have again := lastPlaces_nearestSteps isSteps few written
  have nearest := nearestEven_lastPlaces places steps
  have nearest' := nearestEven_lastPlaces places (nearestSteps (coefficient * one) (10 ^ shown))
  rw [again] at nearest'
  have nonzero : lastPlaces places steps ≠ 0 := by
    intro zero
    rw [zero] at fraction
    exact fraction (dvd_zero _)
  have least : coefficient ≠ 0 := by
    rintro rfl
    rw [Nat.zero_mul] at written
    exact nonzero written.symm
  have near := le_add_of_nearestEven nearest nearest' (Nat.pow_pos (by decide))
  have bound := three_mul_one_le
  have bound' := le_overflow
  obtain ⟨⟨digits, digits'⟩, finite⟩ : (shown ≤ (Nat.toDigits 10 coefficient).length + 400 ∧
      (Nat.toDigits 10 coefficient).length ≤ 400 + shown) ∧
      nearestSteps (coefficient * one) (10 ^ shown) < overflow := by
    obtain ⟨e, same⟩ := exists_one_eq
    rw [same] at nearest bound near bound' ⊢
    have small := lt_of_fraction isSteps nearest fraction
    refine ⟨⟨le_length_toDigits nearest few written nonzero bound,
      length_toDigits_le nearest few written small two_pow_le (by decide)⟩, ?_⟩
    rw [Nat.pow_add] at small
    omega
  rw [ofDecimal_eq, if_neg (by omega), if_neg (by omega), ofSteps_eq, if_pos finite]

/-! ## The last place -/

/-- The bound below which numbers become zero is exact up to 22 places, as ten to that power is exact. -/
theorem tenthPower_eq (few : places ≤ 22) : tenthPower places = ofSteps false one (Nat.pow 10 places) := by
  have all : ∀ p ∈ List.range 23, tenthPower p = ofSteps false one (Nat.pow 10 p) := by decide +kernel
  exact all places (List.mem_range.mpr (Nat.lt_succ_of_le few))

/-- A whole count of last places is not below one last place. -/
theorem nearestSteps_le (few : shown ≤ places) (nonzero : coefficient ≠ 0) :
    nearestSteps one (10 ^ places) ≤ nearestSteps (coefficient * one) (10 ^ shown) := by
  by_contra less
  have tens (n : Nat) : 0 < 10 ^ n := Nat.pow_pos (by decide)
  have near := dist_nearestSteps_le (coefficient * one) (tens shown) (isSteps_nearestSteps one (tens places))
  have near' := dist_nearestSteps_le one (tens places) (isSteps_nearestSteps (coefficient * one) (tens shown))
  have scaled := Nat.mul_le_mul_right (10 ^ (places - shown)) near
  rw [← Nat.dist_mul_right, ← Nat.dist_mul_right, scale_pow few, scale_pow few, Nat.mul_right_comm] at scaled
  have apart := Nat.mul_lt_mul_of_pos_right (Nat.lt_of_not_le less) (tens places)
  have whole : one ≤ coefficient * 10 ^ (places - shown) * one :=
    Nat.le_mul_of_pos_left one (Nat.mul_pos (Nat.pos_of_ne_zero nonzero) (tens _))
  -- The two ratios are one, and so are the numbers nearest to them.
  have same : coefficient * 10 ^ (places - shown) * one = 1 * one := by
    unfold Nat.dist at scaled near'
    omega
  have unit := Nat.eq_of_mul_eq_mul_right one_pos same
  obtain rfl : coefficient = 1 := Nat.dvd_one.mp ⟨_, unit.symm⟩
  have all : places - shown = 0 := by
    by_contra more
    rw [Nat.one_mul] at unit
    exact absurd unit (Nat.one_lt_pow more (by decide)).ne'
  obtain rfl : shown = places := by omega
  rw [Nat.one_mul] at less
  exact less (le_refl _)

end Binary64
end SvgEdit
