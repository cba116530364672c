import SvgEdit.Number.Notation
import SvgEdit.Number.Reading
import SvgEdit.Text.Blank

/-!
# Shorter decimals

Decimals that stand between delimiters are written with a given count of places at most. Zeros at
their end go, and what is smaller than the last place becomes `0`.
-/
namespace SvgEdit
namespace Shrink

/-- The characters that may stand before and after a decimal: `"`, `:`, `;`, `,` and blanks. -/
def isNumberDelimiter (c : Char) : Bool :=
  c = '"' || c = ':' || c = ';' || c = ',' || Text.isBlank c

/-- Digits, a point and digits at the beginning of a text, and what follows them. -/
def cutUnsigned? (s : Text) : Option (Text × Text) :=
  let whole := s.takeWhile Char.isDigit
  match s.dropWhile Char.isDigit with
  | '.' :: rest =>
    let fraction := rest.takeWhile Char.isDigit
    if whole = [] ∨ fraction = [] then none
    else some (whole ++ '.' :: fraction, rest.dropWhile Char.isDigit)
  | _ => none

/-- A decimal at the beginning of a text, and what follows it. -/
def cutDecimal? (s : Text) : Option (Text × Text) :=
  match s with
  | '-' :: rest => (cutUnsigned? rest).map fun (decimal, rest') => ('-' :: decimal, rest')
  | s => cutUnsigned? s

/-- A number with `places` places at most. -/
def roundedText (places : Nat) (x : Binary64) : Text :=
  if x.magnitudeLt (.tenthPower places) then ['0']
  else
    let text := x.fixed places
    if '.' ∈ text then Text.dropWhileEnd (· = '.') (Text.dropWhileEnd (· = '0') text) else text

/-- What is written for a decimal between two characters. -/
def decimalText (places : Nat) (before after : Option Char) (decimal : Text) : Text :=
  if before.any isNumberDelimiter ∧ after.any isNumberDelimiter then
    match Binary64.read? decimal with
    | some x => roundedText places x
    | none => decimal
  else decimal

/-- The text with its decimals shortened, `before` being the character before it. -/
def shortenDecimalsAfter (places : Nat) (before : Option Char) : Text → Text
  | [] => []
  | c :: s =>
    match cutDecimal? (c :: s) with
    | some (decimal, rest) =>
      if rest.length ≤ s.length then
        decimalText places before rest.head? decimal
          ++ shortenDecimalsAfter places decimal.getLast? rest
      else c :: shortenDecimalsAfter places (some c) s
    | none => c :: shortenDecimalsAfter places (some c) s
termination_by s => s.length
decreasing_by all_goals simp only [List.length_cons]; omega

/-- The text with `places` places at most in its decimals. -/
def shortenDecimals (places : Nat) (s : Text) : Text := shortenDecimalsAfter places none s

end Shrink
end SvgEdit
