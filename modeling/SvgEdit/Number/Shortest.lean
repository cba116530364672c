import SvgEdit.Number.Binary64

/-!
# Shortest decimals

The shortest decimal of a number is the one with the fewest digits among those that round to it, and
the nearest to it of these. For each count of digits, only the two neighbours of the number on the
grid of decimals with that many digits have to be looked at.
-/
namespace SvgEdit

/-- `coefficient` times ten to the power of `exponent`. -/
structure Decimal where
  coefficient : Nat
  exponent : Int
deriving DecidableEq, Repr

/-- Where a number goes that lies halfway between two decimals. -/
inductive TieRule
  | up
  | even
deriving DecidableEq, Repr

namespace Binary64

/-! ## What rounds to a number -/

/-- The lower end of what rounds to a number, in quarters of a step. -/
def lowerEnd (steps : Nat) : Nat :=
  let unit := unitAt steps
  4 * steps - (if steps = Nat.pow 2 52 * unit then unit else 2 * unit)

/-- The upper end of what rounds to a number, in quarters of a step. -/
def upperEnd (steps : Nat) : Nat := 4 * steps + 2 * unitAt steps

/-- Whether `num / den` quarters of a step round to a number. The ends do if its last bit is 0. -/
def readsBack (steps num den : Nat) : Bool :=
  if (steps / unitAt steps) % 2 = 0 then
    lowerEnd steps * den ≤ num && num ≤ upperEnd steps * den
  else lowerEnd steps * den < num && num < upperEnd steps * den

/-! ## Decimals that round to a number -/

/-- The decimal nearest to a number among the multiples of 10^`exponent` that round to it. -/
def decimalAt? (tie : TieRule) (steps : Nat) (exponent : Int) : Option Decimal :=
  let num := 4 * one * Nat.pow 10 exponent.toNat
  let den := Nat.pow 10 (-exponent).toNat
  let value := 4 * steps * den
  let low := value / num
  let lowFits := readsBack steps (low * num) den
  let highFits := readsBack steps ((low + 1) * num) den
  let fromLow := value - low * num
  let toHigh := (low + 1) * num - value
  if lowFits && highFits then
    if fromLow < toHigh then some ⟨low, exponent⟩
    else if toHigh < fromLow then some ⟨low + 1, exponent⟩
    else match tie with
      | .up => some ⟨low + 1, exponent⟩
      | .even => some ⟨if low % 2 = 0 then low else low + 1, exponent⟩
  else if lowFits then some ⟨low, exponent⟩
  else if highFits then some ⟨low + 1, exponent⟩
  else none

/-- The place of the first digit of a number that is not zero: 0 for the ones. -/
def firstPlace (steps : Nat) : Int :=
  ((Nat.toDigits 10 (steps * Nat.pow 10 324 / one)).length : Int) - 325

/-- The exact value as a decimal. -/
def exactDecimal (steps : Nat) : Decimal := ⟨steps * Nat.pow 5 1074, -1074⟩

/-- The shortest decimal of a number that is not zero; seventeen digits are always enough. -/
def shortest (tie : TieRule) (steps : Nat) : Decimal :=
  let place := firstPlace steps
  let found := (List.range 17).findSome? fun (n : Nat) => decimalAt? tie steps (place - n)
  found.getD (exactDecimal steps)

end Binary64
end SvgEdit
