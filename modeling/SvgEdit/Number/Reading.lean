import SvgEdit.Number.Binary64
import SvgEdit.Text.Basic

/-!
# Reading numbers

A decimal is read as the nearest number: an optional sign, digits with an optional point among them,
an optional exponent. `inf`, `infinity` and `nan` are read in any case.
-/
namespace SvgEdit

/-- The number that decimal digits write. -/
def digitsValue (digits : Text) : Nat :=
  digits.foldl (fun value c => value * 10 + (c.toNat - '0'.toNat)) 0

/-- The value of a digit of base sixteen. -/
def hexValue? (c : Char) : Option Nat :=
  if '0' ≤ c ∧ c ≤ '9' then some (c.toNat - '0'.toNat)
  else if 'a' ≤ c ∧ c ≤ 'f' then some (c.toNat - 'a'.toNat + 10)
  else if 'A' ≤ c ∧ c ≤ 'F' then some (c.toNat - 'A'.toNat + 10)
  else none

/-- A whole number with an optional sign. -/
def readInteger? (s : Text) : Option Int :=
  let (negative, digits) :=
    match s with
    | '-' :: rest => (true, rest)
    | '+' :: rest => (false, rest)
    | _ => (false, s)
  if digits = [] ∨ ¬ digits.all Char.isDigit then none
  else some (if negative then -(digitsValue digits) else digitsValue digits)

namespace Binary64

/--
The number nearest to `coefficient` times 10^`exponent`. Exponents far outside the range are settled
by the count of digits, so that no power grows beyond need.
-/
def ofDecimal (negative : Bool) (coefficient : Nat) (exponent : Int) : Binary64 :=
  let magnitude := exponent + (Nat.toDigits 10 coefficient).length
  if coefficient = 0 ∨ magnitude < -400 then finite negative 0
  else if 400 < magnitude then infinite negative
  else ofRatio negative (coefficient * Nat.pow 10 exponent.toNat) (Nat.pow 10 (-exponent).toNat)

/-- Reads a number without sign. -/
def readMagnitude? (negative : Bool) (s : Text) : Option Binary64 :=
  let lower := s.map Char.toLower
  if lower = ['n', 'a', 'n'] then some nan
  else if lower = ['i', 'n', 'f'] ∨ lower = ['i', 'n', 'f', 'i', 'n', 'i', 't', 'y'] then
    some (infinite negative)
  else
    let whole := s.takeWhile Char.isDigit
    let afterWhole := s.dropWhile Char.isDigit
    let afterPoint :=
      match afterWhole with
      | '.' :: rest => rest
      | _ => []
    let fraction := afterPoint.takeWhile Char.isDigit
    let rest :=
      match afterWhole with
      | '.' :: rest => rest.dropWhile Char.isDigit
      | _ => afterWhole
    if whole = [] ∧ fraction = [] then none
    else
      let exponent : Option Int :=
        match rest with
        | [] => some 0
        | c :: s => if c = 'e' ∨ c = 'E' then readInteger? s else none
      exponent.map fun exponent =>
        ofDecimal negative (digitsValue (whole ++ fraction)) (exponent - fraction.length)

/-- Reads a number. -/
def read? (s : Text) : Option Binary64 :=
  match s with
  | '-' :: rest => readMagnitude? true rest
  | '+' :: rest => readMagnitude? false rest
  | _ => readMagnitude? false s

end Binary64
end SvgEdit
