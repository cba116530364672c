import SvgEdit.Number.Notation
import SvgEdit.Proofs.Condensing

/-!
# Decimals as they are written

A decimal has a sign, digits, a point and digits again. What is cut from a text is such a decimal, as long
as it can be, and all of them can be read.
-/
namespace SvgEdit

/-- The parts of a decimal. -/
structure DecimalParts where
  negative : Bool
  whole : Text
  fraction : Text

namespace DecimalParts

/-- Digits stand before the point and after it. -/
structure Proper (d : DecimalParts) : Prop where
  whole : d.whole ≠ []
  fraction : d.fraction ≠ []
  digits : ∀ c ∈ d.whole, c.isDigit = true
  digits' : ∀ c ∈ d.fraction, c.isDigit = true

/-- Digits with a point. -/
def unsigned (d : DecimalParts) : Text := d.whole ++ '.' :: d.fraction

def text (d : DecimalParts) : Text := Binary64.signText d.negative ++ d.unsigned

/-- The count of last places. -/
def coefficient (d : DecimalParts) : Nat := digitsValue (d.whole ++ d.fraction)

variable {d : DecimalParts}

theorem Proper.exists_unsigned (h : d.Proper) : ∃ c s, d.unsigned = c :: s ∧ c.isDigit = true := by
  obtain ⟨c, w, same⟩ := List.exists_cons_of_ne_nil h.whole
  refine ⟨c, w ++ '.' :: d.fraction, by rw [unsigned, same]; rfl, h.digits c ?_⟩
  rw [same]
  exact List.mem_cons_self

theorem Proper.isDecimal (h : d.Proper) : IsDecimal d.text := by
  obtain ⟨w, c, whole⟩ := (List.eq_nil_or_concat d.whole).resolve_left h.whole
  obtain ⟨e, f, fraction⟩ := List.exists_cons_of_ne_nil h.fraction
  have parts : ∀ b ∈ d.unsigned, b.isDigit = true ∨ b = '.' := by
    intro b member
    rcases List.mem_append.mp member with member | member
    · exact .inl (h.digits b member)
    · rcases List.mem_cons.mp member with rfl | member
      · exact .inr rfl
      · exact .inl (h.digits' b member)
  have point : ∃ c e : Char, c.isDigit = true ∧ e.isDigit = true ∧ [c, '.', e] <:+: d.unsigned := by
    refine ⟨c, e, h.digits c (by simp [whole]), h.digits' e (by simp [fraction]), w, f, ?_⟩
    simp [unsigned, whole, fraction]
  obtain ⟨b, s, same, digit⟩ := h.exists_unsigned
  obtain ⟨c, e, digit', digit'', inside⟩ := point
  unfold text
  cases d.negative with
  | false =>
    refine ⟨⟨c, e, digit', digit'', inside⟩, fun a head => ?_, fun a member => parts a (List.mem_of_mem_tail member)⟩
    rw [Binary64.signText, if_neg Bool.false_ne_true, List.nil_append, same] at head
    exact .inl (Option.some.inj head ▸ digit)
  | true =>
    refine ⟨⟨c, e, digit', digit'', inside.trans (List.suffix_cons '-' d.unsigned).isInfix⟩, fun a head => ?_, parts⟩
    exact .inr (Option.some.inj head).symm

end DecimalParts

namespace Shrink

variable {s m rest : Text}

theorem cutUnsigned?_eq_some_iff : cutUnsigned? s = some (m, rest) ↔
    ∃ whole fraction : Text, whole ≠ [] ∧ fraction ≠ [] ∧ (∀ c ∈ whole, c.isDigit = true) ∧
      (∀ c ∈ fraction, c.isDigit = true) ∧ m = whole ++ '.' :: fraction ∧ s = m ++ rest ∧
        ∀ c ∈ rest.head?, c.isDigit = false := by
  constructor
  · intro found
    rw [cutUnsigned?] at found
    dsimp only at found
    split at found
    · next rest' point =>
      split at found
      · cases found
      · next nonempty =>
        obtain ⟨rfl, rfl⟩ := Prod.mk.inj (Option.some.inj found)
        rw [not_or] at nonempty
        refine ⟨s.takeWhile Char.isDigit, rest'.takeWhile Char.isDigit, nonempty.1, nonempty.2,
          fun c member => List.mem_takeWhile_imp member, fun c member => List.mem_takeWhile_imp member, rfl, ?_,
          Text.stops_dropWhile Char.isDigit rest'⟩
        rw [List.append_assoc, List.cons_append, List.takeWhile_append_dropWhile, ← point,
          List.takeWhile_append_dropWhile]
    · cases found
  · rintro ⟨whole, fraction, nonempty, nonempty', digits, digits', rfl, rfl, stop⟩
    have point : ∀ c ∈ ('.' :: (fraction ++ rest)).head?, c.isDigit = false :=
      fun c head => Option.some.inj head ▸ by decide
    rw [cutUnsigned?, List.append_assoc, List.cons_append, Text.takeWhile_append_of_stop digits point,
      Text.dropWhile_append_of_stop digits point]
    simp [Text.takeWhile_append_of_stop digits' stop, Text.dropWhile_append_of_stop digits' stop, nonempty, nonempty']

/-- A decimal is cut off where no more digits follow. -/
theorem cutDecimal?_eq_some_iff : cutDecimal? s = some (m, rest) ↔
    ∃ d : DecimalParts, d.Proper ∧ m = d.text ∧ s = m ++ rest ∧ ∀ c ∈ rest.head?, c.isDigit = false := by
  constructor
  · intro found
    unfold cutDecimal? at found
    split at found
    · obtain ⟨⟨m', rest'⟩, cut, same⟩ := Option.map_eq_some_iff.mp found
      obtain ⟨rfl, rfl⟩ := Prod.mk.inj same
      obtain ⟨whole, fraction, nonempty, nonempty', digits, digits', rfl, rfl, stop⟩ := cutUnsigned?_eq_some_iff.mp cut
      exact ⟨⟨true, whole, fraction⟩, ⟨nonempty, nonempty', digits, digits'⟩, rfl, rfl, stop⟩
    · obtain ⟨whole, fraction, nonempty, nonempty', digits, digits', rfl, rfl, stop⟩ :=
        cutUnsigned?_eq_some_iff.mp found
      exact ⟨⟨false, whole, fraction⟩, ⟨nonempty, nonempty', digits, digits'⟩, rfl, rfl, stop⟩
  · rintro ⟨d, proper, rfl, rfl, stop⟩
    have cut : cutUnsigned? (d.unsigned ++ rest) = some (d.unsigned, rest) :=
      cutUnsigned?_eq_some_iff.mpr ⟨d.whole, d.fraction, proper.whole, proper.fraction, proper.digits, proper.digits',
        rfl, rfl, stop⟩
    obtain ⟨c, u, same, digit⟩ := proper.exists_unsigned
    unfold DecimalParts.text cutDecimal?
    cases d.negative with
    | true =>
      simp only [Binary64.signText, if_true, List.cons_append, List.nil_append, cut, Option.map_some]
    | false =>
      simp only [Binary64.signText, Bool.false_eq_true, if_false, List.nil_append]
      split
      · next minus =>
        rw [same] at minus
        obtain ⟨rfl, -⟩ := List.cons.inj minus
        cases digit
      · exact cut

theorem isDecimal_of_cutDecimal? (found : cutDecimal? s = some (m, rest)) : IsDecimal m ∧ s = m ++ rest := by
  obtain ⟨d, proper, rfl, same, -⟩ := cutDecimal?_eq_some_iff.mp found
  exact ⟨proper.isDecimal, same⟩

end Shrink

/-! ## Reading decimals -/

theorem toLower_of_isDigit {c : Char} (digit : c.isDigit = true) : c.toLower = c := by
  simp only [Char.isDigit, Bool.and_eq_true, decide_eq_true_eq] at digit
  rw [Char.toLower]
  split
  · next upper => exact absurd (UInt32.le_trans upper.1 digit.2) (by decide)
  · rfl

namespace Binary64

open DecimalParts

variable {d : DecimalParts}

theorem readMagnitude?_unsigned (proper : d.Proper) (negative : Bool) :
    readMagnitude? negative d.unsigned = some (ofDecimal negative d.coefficient (-d.fraction.length)) := by
  obtain ⟨c, s, same, digit⟩ := proper.exists_unsigned
  have lower : (d.unsigned.map Char.toLower).head? = some c := by
    rw [same, List.map_cons, toLower_of_isDigit digit, List.head?_cons]
  have other {t : Text} (letters : t.head?.any (·.isDigit) = false) : d.unsigned.map Char.toLower ≠ t := by
    rintro rfl
    rw [lower, Option.any_some, digit] at letters
    cases letters
  have point : ∀ c ∈ ('.' :: d.fraction).head?, c.isDigit = false := fun c head => Option.some.inj head ▸ by decide
  have whole := Text.takeWhile_append_of_stop proper.digits point
  have rest := Text.dropWhile_append_of_stop proper.digits point
  have fraction : d.fraction.takeWhile Char.isDigit = d.fraction := List.takeWhile_eq_self_iff.mpr proper.digits'
  have nothing : d.fraction.dropWhile Char.isDigit = [] := List.dropWhile_eq_nil_iff.mpr proper.digits'
  rw [readMagnitude?, if_neg (other (by decide)), if_neg (not_or.mpr ⟨other (by decide), other (by decide)⟩)]
  rw [← unsigned] at whole rest
  simp only [whole, rest, fraction, nothing, proper.whole, false_and, if_false, Option.map_some, coefficient]
  rw [Int.zero_sub]

theorem read?_text (proper : d.Proper) :
    read? d.text = some (ofDecimal d.negative d.coefficient (-d.fraction.length)) := by
  obtain ⟨c, s, same, digit⟩ := proper.exists_unsigned
  have read := readMagnitude?_unsigned proper d.negative
  unfold DecimalParts.text read?
  revert read
  cases d.negative with
  | true => exact id
  | false =>
    intro read
    simp only [signText, Bool.false_eq_true, if_false, List.nil_append]
    split
    · next minus =>
      rw [same] at minus
      obtain ⟨rfl, -⟩ := List.cons.inj minus
      cases digit
    · next plus =>
      rw [same] at plus
      obtain ⟨rfl, -⟩ := List.cons.inj plus
      cases digit
    · exact read

end Binary64
end SvgEdit
