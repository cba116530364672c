import SvgEdit.Proofs.WrittenDecimals
import SvgEdit.Proofs.EmptyAttributes

/-!
# Passes that condense

Shortening decimals and removing blanks do nothing but condense: what is written for a decimal is a
number, and each of the five ways of removing blanks takes a run of them away or makes one blank of it.
-/
namespace SvgEdit

/-! ## Numbers -/

/-- What stands before a character that stays is not touched. -/
theorem Text.prefix_dropWhileEnd {p : Char → Bool} {s u : Text} {c : Char} (stays : p c = false)
    (starts : u ++ [c] <+: s) : u ++ [c] <+: dropWhileEnd p s := by
  obtain ⟨v, rfl⟩ := starts
  have whole : (u ++ [c] ++ v).reverse = v.reverse ++ c :: u.reverse := by simp
  rw [dropWhileEnd, whole, List.dropWhile_append]
  split
  · simp [stays]
  · exact ⟨(v.reverse.dropWhile p).reverse, by simp⟩

theorem Text.mem_of_mem_dropWhileEnd {p : Char → Bool} {s : Text} {c : Char} (member : c ∈ dropWhileEnd p s) :
    c ∈ s := by
  rw [dropWhileEnd, List.mem_reverse] at member
  exact List.mem_reverse.mp ((List.dropWhile_suffix p).subset member)

theorem digitsValue_eq (digits : Text) : digitsValue digits = Nat.ofDigitChars 10 digits 0 := by
  rw [digitsValue, Nat.ofDigitChars_eq_foldl]
  simp only [Nat.mul_comm]

theorem digitsValue_append (u v : Text) : digitsValue (u ++ v) = digitsValue u * 10 ^ v.length + digitsValue v := by
  rw [digitsValue_eq, digitsValue_eq, digitsValue_eq, Nat.ofDigitChars_append, Nat.ofDigitChars_eq_ofDigitChars_zero,
    Nat.mul_comm]

theorem digitsValue_zeros (n : Nat) : digitsValue (List.replicate n '0') = 0 := by
  rw [digitsValue_eq, Nat.ofDigitChars_replicate_zero, Nat.mul_zero]

theorem digitsValue_ofNat (n : Nat) : digitsValue (Text.ofNat n) = n := by
  rw [digitsValue_eq, Text.ofNat, Nat.ofDigitChars_ten_toDigits]

theorem isDigit_of_mem_ofNat {n : Nat} {c : Char} (member : c ∈ Text.ofNat n) : c.isDigit = true :=
  Nat.isDigit_of_mem_toDigits (by decide) (by decide) member

/-- Digits, and digits after the point, that write a count of last places without a zero too many. -/
structure FixedDigits (places n : Nat) (whole fraction : Text) : Prop where
  nonempty : whole ≠ []
  digits : ∀ c ∈ whole, c.isDigit = true
  digits' : ∀ c ∈ fraction, c.isDigit = true
  length : fraction.length = places
  value : digitsValue (whole ++ fraction) = n
  short : ∀ k, 0 < k → (whole.length ≤ k ↔ n < 10 ^ (k + places))

theorem exists_fixedDigits (places n : Nat) :
    let digits := List.replicate (places + 1 - (Text.ofNat n).length) '0' ++ Text.ofNat n
    FixedDigits places n (digits.take (digits.length - places)) (digits.drop (digits.length - places)) := by
  intro digits
  have digit : ∀ c ∈ digits, c.isDigit = true := by
    intro c member
    rcases List.mem_append.mp member with member | member
    · rw [List.eq_of_mem_replicate member]
      decide
    · exact isDigit_of_mem_ofNat member
  have length : digits.length = max (places + 1) (Text.ofNat n).length := by
    rw [List.length_append, List.length_replicate]
    omega
  refine ⟨fun empty => ?_, fun c member => digit c (List.mem_of_mem_take member),
    fun c member => digit c (List.mem_of_mem_drop member), ?_, ?_, fun k positive => ?_⟩
  · have none := congrArg List.length empty
    rw [List.length_take, List.length_nil] at none
    omega
  · rw [List.length_drop]
    omega
  · rw [List.take_append_drop, digitsValue_append, digitsValue_zeros, Nat.zero_mul, Nat.zero_add, digitsValue_ofNat]
  · rw [List.length_take, ← Nat.length_toDigits_le_iff (by decide) (by omega), ← Text.ofNat]
    omega

namespace Binary64

/-- A number with places: digits, a point and digits, after a minus sign if there is one. -/
theorem exists_fixed_finite (places : Nat) (negative : Bool) (steps : Nat) :
    ∃ whole fraction : Text, FixedDigits places (roundHalfEven (steps * Nat.pow 10 places) one) whole fraction ∧
      (finite negative steps).fixed places =
        signText negative ++ whole ++ if places = 0 then [] else '.' :: fraction :=
  ⟨_, _, exists_fixedDigits places (roundHalfEven (steps * Nat.pow 10 places) one), by rw [fixed]⟩

theorem isNumberPart_of_isDigit {c : Char} (digit : c.isDigit = true) : isNumberPart c = true := by
  rw [isNumberPart, isAlphanum_of_isDigit digit, Bool.true_or, Bool.true_or]

theorem isNumberPart_signText (negative : Bool) : ∀ c ∈ signText negative, isNumberPart c = true := by
  cases negative <;> decide

theorem isNumber_fixed (places : Nat) (x : Binary64) : IsNumber (x.fixed places) := by
  cases x with
  | nan =>
    rw [fixed]
    exact ⟨List.cons_ne_nil _ _, by decide⟩
  | infinite negative =>
    rw [fixed]
    exact ⟨List.append_ne_nil_of_right_ne_nil _ (List.cons_ne_nil _ _),
      List.forall_mem_append.mpr ⟨isNumberPart_signText negative, by decide⟩⟩
  | finite negative steps =>
    obtain ⟨whole, fraction, parts, text⟩ := exists_fixed_finite places negative steps
    rw [text]
    refine ⟨List.append_ne_nil_of_left_ne_nil (List.append_ne_nil_of_right_ne_nil _ parts.nonempty) _, ?_⟩
    refine List.forall_mem_append.mpr ⟨List.forall_mem_append.mpr ⟨isNumberPart_signText negative,
      fun c member => isNumberPart_of_isDigit (parts.digits c member)⟩, ?_⟩
    split
    · exact fun _ member => absurd member List.not_mem_nil
    · exact List.forall_mem_cons.mpr ⟨by decide, fun c member => isNumberPart_of_isDigit (parts.digits' c member)⟩

theorem point_not_mem_of_digits {negative : Bool} {whole : Text} (digits : ∀ c ∈ whole, c.isDigit = true) :
    '.' ∉ signText negative ++ whole := by
  intro member
  rcases List.mem_append.mp member with sign | member
  · cases negative <;> exact absurd sign (by decide)
  · exact absurd (digits _ member) (by decide)

/-- A number with a point has digits before it and all places after it. -/
theorem exists_finite_of_point {places : Nat} {x : Binary64} (point : '.' ∈ x.fixed places) :
    ∃ (negative : Bool) (steps : Nat) (whole fraction : Text), x = finite negative steps ∧
      FixedDigits places (roundHalfEven (steps * Nat.pow 10 places) one) whole fraction ∧
        x.fixed places = signText negative ++ whole ++ '.' :: fraction := by
  cases x with
  | nan =>
    rw [fixed] at point
    exact absurd point (by decide)
  | infinite negative =>
    rw [fixed] at point
    cases negative <;> exact absurd point (by decide)
  | finite negative steps =>
    obtain ⟨whole, fraction, parts, text⟩ := exists_fixed_finite places negative steps
    rw [text] at point
    split at point
    · rw [List.append_nil] at point
      exact absurd point (point_not_mem_of_digits parts.digits)
    · next places =>
      rw [if_neg places] at text
      exact ⟨negative, steps, whole, fraction, rfl, parts, text⟩

/-- Before the point of a number stands a digit. -/
theorem exists_of_point {places : Nat} {x : Binary64} (point : '.' ∈ x.fixed places) :
    ∃ (u : Text) (d : Char) (fraction : Text), x.fixed places = u ++ d :: '.' :: fraction ∧ d.isDigit = true := by
  obtain ⟨negative, _, whole, fraction, -, parts, text⟩ := exists_finite_of_point point
  obtain ⟨w, d, rfl⟩ := (List.eq_nil_or_concat whole).resolve_left parts.nonempty
  have digits := parts.digits
  rw [List.concat_eq_append] at digits text
  exact ⟨signText negative ++ w, d, fraction, by rw [text]; simp, digits d (by simp)⟩

end Binary64

/-- The second text is the first one with fewer blanks. -/
inductive Thinned : Text → Text → Prop
  | nil : Thinned [] []
  | keep (c : Char) {s t : Text} : Thinned s t → Thinned (c :: s) (c :: t)
  | blank {blanks s t : Text} : BlankRun blanks → Thinned s t → Thinned (blanks ++ s) (' ' :: t)
  | noBlank {blanks s t : Text} : BlankRun blanks → (∃ c ∈ s.head?, c ∈ blankStops) → Thinned s t →
    Thinned (blanks ++ s) t
  | opening {blanks s t : Text} : BlankRun blanks → Thinned s t → Thinned ('<' :: (blanks ++ s)) ('<' :: t)

theorem Thinned.condensed {s t : Text} (h : Thinned s t) : Condensed s t := by
  induction h with
  | nil => exact .nil
  | keep c _ ih => exact .keep c ih
  | blank run _ ih => exact .blank run ih
  | noBlank run stop _ ih => exact .noBlank run stop ih
  | opening run _ ih => exact .opening run ih

namespace Shrink

/-- A digit stays before the point, whatever zeros go after it. -/
theorem isNumber_roundedText (places : Nat) (x : Binary64) : IsNumber (roundedText places x) := by
  have number := Binary64.isNumber_fixed places x
  rw [roundedText]
  split
  · exact ⟨List.cons_ne_nil _ _, by decide⟩
  · dsimp only
    split
    · next point =>
      obtain ⟨u, d, fraction, text, digit⟩ := Binary64.exists_of_point point
      have noPoint : decide (d = '.') = false := by
        rw [decide_eq_false_iff_not]
        rintro rfl
        cases digit
      have toPoint : (u ++ [d]) ++ ['.'] <+: x.fixed places := ⟨fraction, by rw [text]; simp⟩
      have kept := Text.prefix_dropWhileEnd (p := (· = '0')) (by decide) toPoint
      have digit := Text.prefix_dropWhileEnd (p := (· = '.')) noPoint ((List.prefix_append _ _).trans kept)
      refine ⟨fun empty => ?_, fun c member =>
        number.parts c (Text.mem_of_mem_dropWhileEnd (Text.mem_of_mem_dropWhileEnd member))⟩
      rw [empty, List.prefix_nil] at digit
      simp at digit
    · exact number

/-! ## Decimals -/

theorem isNumber_decimalText {places : Nat} {before after : Option Char} {m : Text} (decimal : IsDecimal m) :
    IsNumber (decimalText places before after m) := by
  unfold decimalText
  split
  · split
    · exact isNumber_roundedText places _
    · exact decimal.isNumber
  · exact decimal.isNumber

theorem condensed_shortenDecimalsAfter (places : Nat) (before : Option Char) (s : Text) :
    Condensed s (shortenDecimalsAfter places before s) := by
  induction before, s using shortenDecimalsAfter.induct with
  | case1 before =>
    rw [shortenDecimalsAfter]
    exact .nil
  | case2 before c s m rest found shorter ih =>
    obtain ⟨decimal, same⟩ := isDecimal_of_cutDecimal? found
    rw [shortenDecimalsAfter, found]
    simp only [shorter, if_true]
    rw [same]
    exact .decimal decimal (isNumber_decimalText decimal) ih
  | case3 before c s m rest found longer ih =>
    rw [shortenDecimalsAfter, found]
    simp only [longer, if_false]
    exact .keep c ih
  | case4 before c s missing ih =>
    rw [shortenDecimalsAfter, missing]
    exact .keep c ih

/-- Shortening decimals condenses. -/
theorem condensed_shortenDecimals (places : Nat) (s : Text) : Condensed s (shortenDecimals places s) :=
  condensed_shortenDecimalsAfter places none s

/-! ## Blanks -/

/-- Where each match is thinned, the text is. -/
theorem thinned_substitute {step : Text.Step}
    (thinned : ∀ s new rest t, step s = some (new, rest) → Thinned rest t → Thinned s (new ++ t)) (s : Text) :
    Thinned s (Text.substitute step s) :=
  Text.substitute_induction Thinned .nil (fun c _ _ later => .keep c later) (fun c s => thinned (c :: s)) s

variable {s new rest t : Text}

theorem afterBlanks?_eq_some_iff :
    afterBlanks? s = some rest ↔ ∃ blanks, BlankRun blanks ∧ s = blanks ++ rest ∧ ∀ c ∈ rest.head?, Text.isBlank c = false := by
  constructor
  · intro found
    cases s with
    | nil => cases found
    | cons c s =>
      rw [afterBlanks?] at found
      split at found
      · next blank =>
        obtain rfl := Option.some.inj found
        refine ⟨c :: s.takeWhile Text.isBlank, ⟨List.cons_ne_nil _ _, fun d member => ?_⟩, ?_,
          Text.stops_dropWhile Text.isBlank s⟩
        · rcases List.mem_cons.mp member with rfl | member
          · exact blank
          · exact List.mem_takeWhile_imp member
        · rw [List.cons_append, List.takeWhile_append_dropWhile]
      · cases found
  · rintro ⟨blanks, run, rfl, stop⟩
    exact afterBlanks?_of_blanks run.blank run.nonempty stop

theorem afterChar?_eq_some_iff {c : Char} : afterChar? c s = some rest ↔ s = c :: rest := by
  cases s with
  | nil => simp [afterChar?]
  | cons d s => by_cases same : d = c <;> simp [afterChar?, same]

/-- Characters that are no blanks stop a run of them. -/
theorem stops_cons {c : Char} (noBlank : Text.isBlank c = false) (s : Text) :
    ∀ d ∈ (c :: s).head?, Text.isBlank d = false :=
  fun _ head => Option.some.inj head ▸ noBlank

theorem betweenTags?_eq_some_iff : betweenTags? s = some (new, rest) ↔
    ∃ blanks, BlankRun blanks ∧ s = '>' :: (blanks ++ '<' :: rest) ∧ new = ['>', '<'] := by
  constructor
  · intro found
    obtain ⟨s₁, first, found⟩ := Option.bind_eq_some_iff.mp found
    obtain ⟨s₂, second, found⟩ := Option.bind_eq_some_iff.mp found
    obtain ⟨s₃, third, found⟩ := Option.bind_eq_some_iff.mp found
    obtain ⟨rfl, rfl⟩ := Prod.mk.inj (Option.some.inj found)
    obtain ⟨blanks, run, rfl, -⟩ := afterBlanks?_eq_some_iff.mp second
    obtain rfl := afterChar?_eq_some_iff.mp third
    exact ⟨blanks, run, afterChar?_eq_some_iff.mp first, rfl⟩
  · rintro ⟨blanks, run, rfl, rfl⟩
    have later := afterBlanks?_eq_some_iff.mpr ⟨blanks, run, rfl, stops_cons (by decide : Text.isBlank '<' = false) rest⟩
    simp [betweenTags?, afterChar?, later]

theorem equalsQuote?_eq_some_iff : equalsQuote? s = some (new, rest) ↔
    ∃ (u v : Text) (q : Char), (∀ c ∈ u, Text.isBlank c = true) ∧ (∀ c ∈ v, Text.isBlank c = true) ∧
      (q = '"' ∨ q = '\'') ∧ s = u ++ '=' :: (v ++ q :: rest) ∧ new = ['=', q] := by
  constructor
  · intro found
    obtain ⟨s₁, first, found⟩ := Option.bind_eq_some_iff.mp found
    split at found
    · next q rest' quoted =>
      split at found
      · next quote =>
        obtain ⟨rfl, rfl⟩ := Prod.mk.inj (Option.some.inj found)
        refine ⟨s.takeWhile Text.isBlank, s₁.takeWhile Text.isBlank, q, fun _ member => List.mem_takeWhile_imp member,
          fun _ member => List.mem_takeWhile_imp member, quote, ?_, rfl⟩
        rw [← quoted, List.takeWhile_append_dropWhile, ← afterChar?_eq_some_iff.mp first,
          List.takeWhile_append_dropWhile]
      · cases found
    · cases found
  · rintro ⟨u, v, q, blank, blank', quote, rfl, rfl⟩
    have noBlank : Text.isBlank q = false := by rcases quote with rfl | rfl <;> decide
    have first := Text.dropWhile_append_of_stop blank (stops_cons (by decide : Text.isBlank '=' = false) (v ++ q :: rest))
    have second := Text.dropWhile_append_of_stop blank' (stops_cons noBlank rest)
    simp [equalsQuote?, first, second, afterChar?, quote]

theorem afterOpening?_eq_some_iff : afterOpening? s = some (new, rest) ↔
    ∃ blanks, BlankRun blanks ∧ s = '<' :: (blanks ++ rest) ∧ (∀ c ∈ rest.head?, Text.isBlank c = false) ∧
      new = ['<'] := by
  constructor
  · intro found
    obtain ⟨s₁, first, found⟩ := Option.bind_eq_some_iff.mp found
    obtain ⟨s₂, second, found⟩ := Option.bind_eq_some_iff.mp found
    obtain ⟨rfl, rfl⟩ := Prod.mk.inj (Option.some.inj found)
    obtain ⟨blanks, run, rfl, stop⟩ := afterBlanks?_eq_some_iff.mp second
    exact ⟨blanks, run, afterChar?_eq_some_iff.mp first, stop, rfl⟩
  · rintro ⟨blanks, run, rfl, stop, rfl⟩
    have later := afterBlanks?_eq_some_iff.mpr ⟨blanks, run, rfl, stop⟩
    simp [afterOpening?, afterChar?, later]

theorem beforeClosing?_eq_some_iff : beforeClosing? s = some (new, rest) ↔
    ∃ blanks, BlankRun blanks ∧ s = blanks ++ '>' :: rest ∧ new = ['>'] := by
  constructor
  · intro found
    obtain ⟨s₁, first, found⟩ := Option.bind_eq_some_iff.mp found
    obtain ⟨s₂, second, found⟩ := Option.bind_eq_some_iff.mp found
    obtain ⟨rfl, rfl⟩ := Prod.mk.inj (Option.some.inj found)
    obtain ⟨blanks, run, rfl, -⟩ := afterBlanks?_eq_some_iff.mp first
    obtain rfl := afterChar?_eq_some_iff.mp second
    exact ⟨blanks, run, rfl, rfl⟩
  · rintro ⟨blanks, run, rfl, rfl⟩
    have later := afterBlanks?_eq_some_iff.mpr ⟨blanks, run, rfl, stops_cons (by decide : Text.isBlank '>' = false) rest⟩
    simp [beforeClosing?, afterChar?, later]

theorem blankRun?_eq_some_iff : blankRun? s = some (new, rest) ↔
    ∃ blanks, BlankRun blanks ∧ 2 ≤ blanks.length ∧ s = blanks ++ rest ∧ (∀ c ∈ rest.head?, Text.isBlank c = false) ∧
      new = [' '] := by
  constructor
  · intro found
    unfold blankRun? at found
    split at found
    · next c d s =>
      split at found
      · next both =>
        obtain ⟨rfl, rfl⟩ := Prod.mk.inj (Option.some.inj found)
        refine ⟨c :: d :: s.takeWhile Text.isBlank, ⟨List.cons_ne_nil _ _, ?_⟩, by simp, ?_,
          Text.stops_dropWhile Text.isBlank s, rfl⟩
        · exact List.forall_mem_cons.mpr ⟨both.1, List.forall_mem_cons.mpr ⟨both.2, fun _ member =>
            List.mem_takeWhile_imp member⟩⟩
        · rw [List.cons_append, List.cons_append, List.takeWhile_append_dropWhile]
      · cases found
    · cases found
  · rintro ⟨blanks, run, long, rfl, stop, rfl⟩
    obtain ⟨c, d, blanks, rfl⟩ : ∃ c d u, blanks = c :: d :: u := by
      match blanks, long with
      | c :: d :: u, _ => exact ⟨c, d, u, rfl⟩
    obtain ⟨first, later⟩ := List.forall_mem_cons.mp run.blank
    obtain ⟨second, later⟩ := List.forall_mem_cons.mp later
    simp [blankRun?, first, second, Text.dropWhile_append_of_stop later stop]

/-- Blanks that may be there go where they can. -/
theorem thinned_blanks {blanks : Text} (blank : ∀ c ∈ blanks, Text.isBlank c = true)
    (stop : ∃ c ∈ s.head?, c ∈ blankStops) (h : Thinned s t) : Thinned (blanks ++ s) t := by
  by_cases nothing : blanks = []
  · rwa [nothing, List.nil_append]
  · exact .noBlank ⟨nothing, blank⟩ stop h

theorem thinned_betweenTags? (found : betweenTags? s = some (new, rest)) (h : Thinned rest t) :
    Thinned s (new ++ t) := by
  obtain ⟨blanks, run, rfl, rfl⟩ := betweenTags?_eq_some_iff.mp found
  exact .keep '>' (.noBlank run ⟨'<', rfl, by decide⟩ (.keep '<' h))

theorem thinned_equalsQuote? (found : equalsQuote? s = some (new, rest)) (h : Thinned rest t) :
    Thinned s (new ++ t) := by
  obtain ⟨u, v, q, blank, blank', quote, rfl, rfl⟩ := equalsQuote?_eq_some_iff.mp found
  have stop : q ∈ blankStops := by rcases quote with rfl | rfl <;> decide
  exact thinned_blanks blank ⟨'=', rfl, by decide⟩ (.keep '=' (thinned_blanks blank' ⟨q, rfl, stop⟩ (.keep q h)))

theorem thinned_afterOpening? (found : afterOpening? s = some (new, rest)) (h : Thinned rest t) :
    Thinned s (new ++ t) := by
  obtain ⟨blanks, run, rfl, -, rfl⟩ := afterOpening?_eq_some_iff.mp found
  exact .opening run h

theorem thinned_beforeClosing? (found : beforeClosing? s = some (new, rest)) (h : Thinned rest t) :
    Thinned s (new ++ t) := by
  obtain ⟨blanks, run, rfl, rfl⟩ := beforeClosing?_eq_some_iff.mp found
  exact .noBlank run ⟨'>', rfl, by decide⟩ (.keep '>' h)

theorem thinned_blankRun? (found : blankRun? s = some (new, rest)) (h : Thinned rest t) :
    Thinned s (new ++ t) := by
  obtain ⟨blanks, run, -, rfl, -, rfl⟩ := blankRun?_eq_some_iff.mp found
  exact .blank run h

/-- Whatever thinning keeps, removing blanks keeps. -/
theorem removeBlanks_induction {is : Text → Prop} (thinned : ∀ s t, Thinned s t → is s → is t) (holds : is s) : is (removeBlanks s) := by
  have substitute {step : Text.Step}
      (thinned' : ∀ s new rest t, step s = some (new, rest) → Thinned rest t → Thinned s (new ++ t)) {s : Text}
      (holds : is s) : is (Text.substitute step s) := thinned s _ (thinned_substitute thinned' s) holds
  simp only [removeBlanks, List.foldl_cons, List.foldl_nil]
  exact substitute (fun _ _ _ _ => thinned_blankRun?) (substitute (fun _ _ _ _ => thinned_beforeClosing?)
    (substitute (fun _ _ _ _ => thinned_afterOpening?) (substitute (fun _ _ _ _ => thinned_equalsQuote?)
      (substitute (fun _ _ _ _ => thinned_betweenTags?) holds))))

end Shrink
end SvgEdit
