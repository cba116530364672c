import SvgEdit.Proofs.NearestNumbers
import SvgEdit.Proofs.Rounding

/-!
# Decimals without zeros at the end

The zeros at the end of a number with places go, and the point with them if nothing else follows it. What is
left is read as a number that is written in the same way, unless the bound below which numbers become zero is
greater than the last place.
-/
namespace SvgEdit

open SvgEdit.Shrink

/-! ## Digits -/

namespace Text

/-- What goes from the end of a text, and what stays. -/
theorem exists_trimmed (p : Char → Bool) (s : Text) :
    ∃ front back, s = front ++ back ∧ (∀ c ∈ back, p c = true) ∧ ∀ c ∈ front.getLast?, p c = false := by
  obtain ⟨tail, same, all⟩ := exists_dropWhileEnd p s
  refine ⟨dropWhileEnd p s, tail, same, all, fun c last => ?_⟩
  rw [dropWhileEnd, List.getLast?_reverse] at last
  exact stops_dropWhile p s.reverse c last

end Text

theorem digitsValue_single (c : Char) : digitsValue [c] = c.toNat - '0'.toNat := by
  simp [digitsValue]

theorem digitsValue_lt {digits : Text} (all : ∀ c ∈ digits, c.isDigit = true) :
    digitsValue digits < 10 ^ digits.length := by
  induction digits with
  | nil => decide
  | cons c digits ih =>
    obtain ⟨digit, all⟩ := List.forall_mem_cons.mp all
    have later := ih all
    have first : digitsValue [c] ≤ 9 := by
      simp only [Char.isDigit, Bool.and_eq_true, decide_eq_true_eq] at digit
      have most : c.toNat ≤ '9'.toNat := digit.2
      rw [digitsValue_single]
      exact Nat.sub_le_sub_right most _
    have shift : digitsValue [c] * 10 ^ digits.length ≤ 9 * 10 ^ digits.length := Nat.mul_le_mul_right _ first
    rw [← List.singleton_append, digitsValue_append, List.length_append, List.length_singleton, Nat.pow_add]
    omega

/-- Digits that do not end with a zero do not write a multiple of ten. -/
theorem not_dvd_digitsValue {digits : Text} (all : ∀ c ∈ digits, c.isDigit = true) (nonempty : digits ≠ [])
    (last : ∀ c ∈ digits.getLast?, decide (c = '0') = false) : ¬ 10 ∣ digitsValue digits := by
  obtain ⟨digits, c, rfl⟩ := (List.eq_nil_or_concat digits).resolve_left nonempty
  rw [List.concat_eq_append] at all last ⊢
  have digit : c.isDigit = true := all c (by simp)
  have other : c ≠ '0' := of_decide_eq_false (last c (by simp))
  simp only [Char.isDigit, Bool.and_eq_true, decide_eq_true_eq] at digit
  have least : '0'.toNat ≤ c.toNat := digit.1
  have most : c.toNat ≤ '9'.toNat := digit.2
  have apart : c.toNat ≠ '0'.toNat := fun same => other (Char.toNat_inj.mp same)
  have nine : '9'.toNat = '0'.toNat + 9 := by decide
  rw [digitsValue_append, digitsValue_single, List.length_singleton]
  omega

/-- The digits that write a count of last places, without zeros at the end. -/
structure TrimmedDigits (places n : Nat) (whole shown : Text) : Prop where
  nonempty : whole ≠ []
  digits : ∀ c ∈ whole, c.isDigit = true
  digits' : ∀ c ∈ shown, c.isDigit = true
  last : ∀ c ∈ shown.getLast?, decide (c = '0') = false
  few : shown.length ≤ places
  value : digitsValue (whole ++ shown) * 10 ^ (places - shown.length) = n
  short : ∀ k, 0 < k → (whole.length ≤ k ↔ n < 10 ^ (k + places))

namespace TrimmedDigits

variable {places n : Nat} {whole shown : Text}

/-- Zeros stand in all places after those that are shown. -/
theorem length_le_iff (h : TrimmedDigits places n whole shown) (k : Nat) :
    shown.length ≤ k ↔ 10 ^ (places - k) ∣ n := by
  have few := h.few
  constructor
  · intro le
    exact (Nat.pow_dvd_pow 10 (by omega)).trans (Dvd.intro_left _ h.value)
  · intro multiple
    by_contra greater
    have nonempty : shown ≠ [] := fun empty => greater (empty ▸ Nat.zero_le k)
    have split : places - k = (shown.length - k - 1 + 1) + (places - shown.length) := by omega
    rw [← h.value, split, Nat.pow_add] at multiple
    have tens := Nat.dvd_of_mul_dvd_mul_right (Nat.pow_pos (by decide)) multiple
    refine not_dvd_digitsValue (List.forall_mem_append.mpr ⟨h.digits, h.digits'⟩)
      (List.append_ne_nil_of_right_ne_nil whole nonempty) (fun c last => h.last c ?_)
      ((dvd_pow_self 10 (Nat.succ_ne_zero _)).trans tens)
    rwa [List.getLast?_append_of_ne_nil whole nonempty] at last

theorem not_dvd (h : TrimmedDigits places n whole shown) (nonempty : shown ≠ []) : ¬ 10 ^ places ∣ n := by
  intro multiple
  have none := (h.length_le_iff 0).mpr multiple
  exact nonempty (List.eq_nil_of_length_eq_zero (Nat.le_zero.mp none))

end TrimmedDigits

theorem FixedDigits.exists_trimmed {places n : Nat} {whole fraction : Text} (h : FixedDigits places n whole fraction) :
    ∃ shown zeros : Text, fraction = shown ++ zeros ∧ (∀ c ∈ zeros, decide (c = '0') = true) ∧
      TrimmedDigits places n whole shown := by
  obtain ⟨nonempty, digits, digits', rfl, value, short⟩ := h
  obtain ⟨shown, zeros, rfl, zero, last⟩ := Text.exists_trimmed (· = '0') fraction
  have all : zeros = List.replicate zeros.length '0' :=
    List.eq_replicate_of_mem fun c member => of_decide_eq_true (zero c member)
  have nothing : digitsValue zeros = 0 := by rw [all, digitsValue_zeros]
  have rest : (shown ++ zeros).length - shown.length = zeros.length := by
    rw [List.length_append]
    omega
  refine ⟨shown, zeros, rfl, zero, nonempty, digits, fun c member => digits' c (List.mem_append_left zeros member),
    last, ?_, ?_, short⟩
  · rw [List.length_append]
    exact Nat.le_add_right _ _
  · rw [← value, ← List.append_assoc, digitsValue_append (whole ++ shown), nothing, rest, Nat.add_zero]

/-! ## Numbers read again -/

namespace Binary64

variable {places steps coefficient : Nat} {negative negative' : Bool} {exponent : Int}

/-- What is read has few bits. -/
theorem isSteps_of_ofDecimal (read : ofDecimal negative coefficient exponent = finite negative' steps) :
    IsSteps steps := by
  unfold ofDecimal at read
  dsimp only at read
  split at read
  · obtain ⟨-, rfl⟩ := finite.inj read
    exact isSteps_zero
  · split at read
    · cases read
    · rw [ofRatio, ofSteps_eq] at read
      split at read
      · obtain ⟨-, rfl⟩ := finite.inj read
        exact isSteps_nearestSteps _ (Nat.pow_pos (by decide))
      · cases read

end Binary64

namespace Shrink

open Binary64

variable {places : Nat}

/-- A whole text is a decimal. -/
def IsExact (m : Text) : Prop := cutDecimal? m = some (m, [])

theorem isExact_iff {m : Text} : IsExact m ↔ ∃ d : DecimalParts, d.Proper ∧ m = d.text := by
  rw [IsExact, cutDecimal?_eq_some_iff]
  simp

theorem IsExact.point {m : Text} (h : IsExact m) : '.' ∈ m := by
  obtain ⟨d, -, rfl⟩ := isExact_iff.mp h
  simp [DecimalParts.text, DecimalParts.unsigned]

theorem IsExact.length {m : Text} (h : IsExact m) : 1 < m.length := by
  obtain ⟨d, proper, rfl⟩ := isExact_iff.mp h
  have positive := List.length_pos_iff.mpr proper.whole
  simp only [DecimalParts.text, DecimalParts.unsigned, List.length_append, List.length_cons]
  omega

theorem IsExact.exists_read? {m : Text} (h : IsExact m) : ∃ x, read? m = some x := by
  obtain ⟨d, proper, rfl⟩ := isExact_iff.mp h
  exact ⟨_, read?_text proper⟩

/-- What is left of a decimal without the zeros at its end, and without the point if no digit follows it. -/
theorem trim_fixed {whole shown zeros : Text} (noPoint : '.' ∉ whole) (digits : ∀ c ∈ shown, c.isDigit = true)
    (zero : ∀ c ∈ zeros, decide (c = '0') = true) (last : ∀ c ∈ shown.getLast?, decide (c = '0') = false) :
    Text.dropWhileEnd (· = '.') (Text.dropWhileEnd (· = '0') (whole ++ '.' :: (shown ++ zeros))) =
      if shown = [] then whole else whole ++ '.' :: shown := by
  have ends : (whole ++ '.' :: shown).getLast? = some (shown.getLast?.getD '.') := by
    rw [List.getLast?_append, List.getLast?_cons, Option.some_or]
  have noZeros : Text.dropWhileEnd (· = '0') (whole ++ '.' :: (shown ++ zeros)) = whole ++ '.' :: shown := by
    rw [← List.cons_append, ← List.append_assoc]
    refine Text.dropWhileEnd_append_of_stop zero fun c last' => ?_
    obtain rfl := Option.some.inj (ends.symm.trans last')
    cases final : shown.getLast? with
    | none => rfl
    | some d => exact last d final
  rw [noZeros]
  split
  · next empty =>
    subst empty
    refine Text.dropWhileEnd_append_of_stop (by simp) fun c last => decide_eq_false ?_
    rintro rfl
    exact noPoint (List.mem_of_getLast? last)
  · next nonempty =>
    refine Text.dropWhileEnd_of_last fun c last' => decide_eq_false ?_
    obtain ⟨d, final⟩ := Option.isSome_iff_exists.mp (List.getLast?_isSome.mpr nonempty)
    rw [ends, final] at last'
    obtain rfl : d = c := Option.some.inj last'
    rintro rfl
    exact absurd (digits _ (List.mem_of_getLast? final)) (by decide)

/-- The digits of a fixed-point form, and the zeros at its end. -/
theorem exists_fixed_trimmed (places : Nat) (negative : Bool) (steps : Nat) :
    ∃ whole shown : Text, TrimmedDigits places (lastPlaces places steps) whole shown ∧
      (finite negative steps).fixed places = signText negative ++ whole ++
        if places = 0 then [] else '.' :: (shown ++ List.replicate (places - shown.length) '0') := by
  obtain ⟨whole, fraction, parts, text⟩ := exists_fixed_finite places negative steps
  have length := parts.length
  obtain ⟨shown, zeros, rfl, zero, trimmed⟩ := parts.exists_trimmed
  have count : zeros.length = places - shown.length := by
    rw [List.length_append] at length
    omega
  have all : zeros = List.replicate (places - shown.length) '0' :=
    count ▸ List.eq_replicate_of_mem fun c member => of_decide_eq_true (zero c member)
  exact ⟨whole, shown, trimmed, by rw [text, all]⟩

/-- The zeros at the end of a fixed-point form go, and the point if nothing else follows it. -/
theorem roundedText_of_fixed {x : Binary64} {negative : Bool} {n : Nat} {whole shown : Text}
    (great : x.magnitudeLt (tenthPower places) = false) (trimmed : TrimmedDigits places n whole shown)
    (text : x.fixed places = signText negative ++ whole ++
      if places = 0 then [] else '.' :: (shown ++ List.replicate (places - shown.length) '0')) :
    roundedText places x = signText negative ++ whole ++ if shown = [] then [] else '.' :: shown := by
  have noPoint : '.' ∉ signText negative ++ whole := point_not_mem_of_digits trimmed.digits
  have zero : ∀ c ∈ List.replicate (places - shown.length) '0', decide (c = '0') = true :=
    fun c member => decide_eq_true (List.eq_of_mem_replicate member)
  rw [roundedText, great, text]
  by_cases none : places = 0
  · have nothing : shown = [] := List.eq_nil_of_length_eq_zero (Nat.le_zero.mp (none ▸ trimmed.few))
    simp [none, nothing, noPoint]
  · simp only [Bool.false_eq_true, if_false, if_neg none]
    rw [if_pos (by simp), trim_fixed noPoint trimmed.digits' zero trimmed.last]
    split <;> simp

/-- What is written of a number that is not below the last place: zeros do not stand at the end. -/
theorem exists_roundedText_finite {negative : Bool} {steps : Nat}
    (great : (finite negative steps).magnitudeLt (tenthPower places) = false) :
    ∃ whole shown : Text, TrimmedDigits places (lastPlaces places steps) whole shown ∧
      roundedText places (finite negative steps) =
        signText negative ++ whole ++ if shown = [] then [] else '.' :: shown := by
  obtain ⟨whole, shown, trimmed, text⟩ := exists_fixed_trimmed places negative steps
  exact ⟨whole, shown, trimmed, roundedText_of_fixed great trimmed text⟩

/-- A number that is written as a decimal, without the zeros at the end. -/
theorem exists_of_isExact_roundedText {x : Binary64} (exact : IsExact (roundedText places x)) :
    ∃ (d : DecimalParts) (steps : Nat), d.Proper ∧ x = finite d.negative steps ∧ roundedText places x = d.text ∧
      x.magnitudeLt (tenthPower places) = false ∧ d.fraction.length ≤ places ∧
        d.coefficient * 10 ^ (places - d.fraction.length) = lastPlaces places steps ∧
          ¬ 10 ^ places ∣ lastPlaces places steps := by
  have great : x.magnitudeLt (tenthPower places) = false := by
    by_contra small
    rw [roundedText, if_pos (by simpa using small)] at exact
    exact absurd exact.point (by decide)
  have text : roundedText places x = if '.' ∈ x.fixed places then
      Text.dropWhileEnd (· = '.') (Text.dropWhileEnd (· = '0') (x.fixed places)) else x.fixed places := by
    simp [roundedText, great]
  have point : '.' ∈ x.fixed places := by
    by_contra none
    rw [text, if_neg none] at exact
    exact none exact.point
  obtain ⟨negative, steps, -, -, rfl, -⟩ := exists_finite_of_point point
  obtain ⟨whole, shown, trimmed, text⟩ := exists_roundedText_finite great
  have nonempty : shown ≠ [] := by
    rintro rfl
    rw [text, if_pos rfl, List.append_nil] at exact
    exact point_not_mem_of_digits trimmed.digits exact.point
  rw [if_neg nonempty] at text
  refine ⟨⟨negative, whole, shown⟩, steps, ⟨trimmed.nonempty, nonempty, trimmed.digits, trimmed.digits'⟩, rfl, ?_,
    great, trimmed.few, trimmed.value, trimmed.not_dvd nonempty⟩
  rw [text, DecimalParts.text, DecimalParts.unsigned, List.append_assoc]

theorem magnitudeLt_ofSteps {negative : Bool} {m num den : Nat} (least : nearestSteps num den ≤ m)
    (bounded : ∃ negative n, (finite negative n).magnitudeLt (ofSteps false num den) = false) :
    (finite negative m).magnitudeLt (ofSteps false num den) = false := by
  obtain ⟨negative', n, great⟩ := bounded
  rw [ofSteps_eq] at great ⊢
  split
  · exact decide_eq_false (Nat.not_lt.mpr least)
  · next infinite =>
    rw [if_neg infinite] at great
    cases great

/-- What is written for a number that was read is written for the number that it is read as. -/
theorem roundedText_again {m : Text} {x : Binary64} (read : read? m = some x) (decimal : IsExact m)
    (exact : IsExact (roundedText places x)) :
    ∃ y, read? (roundedText places x) = some y ∧
      (roundedText places y = roundedText places x ∨ y.magnitudeLt (tenthPower places) = true ∧ 22 < places) := by
  obtain ⟨d', proper', rfl⟩ := isExact_iff.mp decimal
  obtain ⟨d, steps, proper, rfl, text, great, few, written, fraction⟩ := exists_of_isExact_roundedText exact
  have bits : IsSteps steps := by
    rw [read?_text proper'] at read
    exact isSteps_of_ofDecimal (Option.some.inj read)
  have nonzero : d.coefficient ≠ 0 := by
    intro zero
    rw [zero, Nat.zero_mul] at written
    exact fraction (written ▸ dvd_zero _)
  have read' := read?_text proper
  rw [ofDecimal_eq_nearestSteps bits few written fraction] at read'
  have again := lastPlaces_nearestSteps bits few written
  have least := nearestSteps_le few nonzero
  generalize nearestSteps (d.coefficient * one) (10 ^ d.fraction.length) = n at read' again least
  have alike : (finite d.negative n).fixed places = (finite d.negative steps).fixed places := by
    rw [lastPlaces, lastPlaces] at again
    simp only [fixed, Nat.pow_eq, again]
  refine ⟨_, text ▸ read', ?_⟩
  by_cases small : (finite d.negative n).magnitudeLt (tenthPower places) = true
  · refine .inr ⟨small, ?_⟩
    by_contra exactPower
    rw [tenthPower_eq (Nat.le_of_not_lt exactPower), Nat.pow_eq] at small great
    rw [magnitudeLt_ofSteps least ⟨_, _, great⟩] at small
    cases small
  · refine .inl ?_
    simp only [roundedText, small, great, alike, Bool.false_eq_true, if_false]

end Shrink
end SvgEdit
