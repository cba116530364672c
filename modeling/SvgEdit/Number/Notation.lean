import SvgEdit.Number.Shortest
import SvgEdit.Text.Basic

/-!
# Written numbers

Numbers are written in three ways: `plain`, with the fewest digits and never an exponent; `fixed`,
with a given count of places; and `floating`, with a point or an exponent always there.
-/
namespace SvgEdit

/-- The digits of a decimal without zeros at the end, and the exponent that belongs to them. -/
def Decimal.digits (d : Decimal) : Text × Int :=
  let all := Text.ofNat d.coefficient
  let digits := Text.dropWhileEnd (· = '0') all
  (digits, d.exponent + (all.length - digits.length : Nat))

/-- Digits with a point, or with zeros up to it. -/
def positional (digits : Text) (exponent : Int) : Text :=
  if 0 ≤ exponent then digits ++ List.replicate exponent.toNat '0'
  else
    let places := (-exponent).toNat
    if places < digits.length then
      digits.take (digits.length - places) ++ '.' :: digits.drop (digits.length - places)
    else '0' :: '.' :: (List.replicate (places - digits.length) '0' ++ digits)

namespace Binary64

/-- The sign as it is written. -/
def signText (negative : Bool) : Text := if negative then ['-'] else []

/-- The fewest digits that read back, without exponent; of two as near, the greater one. -/
def plain : Binary64 → Text
  | nan => ['N', 'a', 'N']
  | infinite negative => signText negative ++ ['i', 'n', 'f']
  | finite negative steps =>
    if steps = 0 then signText negative ++ ['0']
    else
      let (digits, exponent) := (shortest .up steps).digits
      signText negative ++ positional digits exponent

/-- Exactly `places` digits after the point; a tie goes to the even neighbour. -/
def fixed (places : Nat) : Binary64 → Text
  | nan => ['N', 'a', 'N']
  | infinite negative => signText negative ++ ['i', 'n', 'f']
  | finite negative steps =>
    let digits := Text.ofNat (roundHalfEven (steps * Nat.pow 10 places) one)
    let digits := List.replicate (places + 1 - digits.length) '0' ++ digits
    let whole := digits.take (digits.length - places)
    signText negative ++ whole ++
      if places = 0 then [] else '.' :: digits.drop (digits.length - places)

/--
The fewest digits that read back, with a point if the number has its first digit from 10^-5 up to
10^15, else with an exponent.
-/
def floating : Binary64 → Text
  | nan => ['n', 'u', 'l', 'l']
  | infinite _ => ['n', 'u', 'l', 'l']
  | finite negative steps =>
    if steps = 0 then signText negative ++ ['0', '.', '0']
    else
      let (digits, exponent) := (shortest .even steps).digits
      let point := exponent + digits.length
      signText negative ++
        if 0 ≤ exponent ∧ point ≤ 16 then positional digits exponent ++ ['.', '0']
        else if -5 < point ∧ point ≤ 16 then positional digits exponent
        else
          digits.take 1 ++ (if digits.length = 1 then [] else '.' :: digits.drop 1)
            ++ 'e' :: Text.ofInt (point - 1)

end Binary64
end SvgEdit
