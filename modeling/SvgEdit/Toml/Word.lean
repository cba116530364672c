import SvgEdit.Toml.Moment
import SvgEdit.Toml.Value

/-!
# Words of configuration files

Numbers, truth values and moments stand without marks around them. Digits may be grouped by
underscores, one between two digits. Whole numbers have 64 bits.
-/
namespace SvgEdit
namespace Toml

/-- The digits without the underscores that group them. -/
def ungroup? (isDigit : Char → Bool) (s : Text) : Option Text :=
  let groups := Text.splitOn '_' s
  if groups.all fun group => !group.isEmpty && group.all isDigit then some groups.flatten else none

/-- The digits of a whole number in base ten; no zero stands before others. -/
def wholeDigits? (s : Text) : Option Text :=
  match s with
  | '0' :: _ :: _ => none
  | s => ungroup? Char.isDigit s

/-- The sign of a number, and what follows it. -/
def cutSign (s : Text) : Bool × Text :=
  match s with
  | '-' :: s => (true, s)
  | '+' :: s => (false, s)
  | s => (false, s)

/-- A number of 64 bits with its sign. -/
def integer64? (n : Int) : Option Toml :=
  if -0x8000000000000000 ≤ n ∧ n < 0x8000000000000000 then some (.integer n) else none

def isBinaryDigit (c : Char) : Bool := c = '0' || c = '1'

def isOctalDigit (c : Char) : Bool := '0' ≤ c && c ≤ '7'

def isHexDigit (c : Char) : Bool := (hexValue? c).isSome

/-- The number that digits write in a base. -/
def numberIn (base : Nat) (digits : Text) : Nat :=
  digits.foldl (fun value c => value * base + (hexValue? c).getD 0) 0

/-- A whole number in base sixteen, eight or two, after its mark, or in base ten with a sign. -/
def integer? (s : Text) : Option Toml :=
  match s with
  | '0' :: 'x' :: s => (ungroup? isHexDigit s).bind (integer64? ∘ Int.ofNat ∘ numberIn 16)
  | '0' :: 'o' :: s => (ungroup? isOctalDigit s).bind (integer64? ∘ Int.ofNat ∘ numberIn 8)
  | '0' :: 'b' :: s => (ungroup? isBinaryDigit s).bind (integer64? ∘ Int.ofNat ∘ numberIn 2)
  | s =>
    let (negative, digits) := cutSign s
    (wholeDigits? digits).bind fun digits =>
      integer64? (if negative then -(digitsValue digits) else digitsValue digits)

/-- The exponent of a number, with its mark; there need not be one. -/
def exponentText? (s : Text) : Option Text :=
  match s with
  | [] => some []
  | c :: s =>
    if c = 'e' ∨ c = 'E' then
      let (negative, digits) := cutSign s
      (ungroup? Char.isDigit digits).map fun digits =>
        'e' :: (if negative then '-' :: digits else digits)
    else none

def isGroupedDigit (c : Char) : Bool := c.isDigit || c = '_'

/-- The fraction and the exponent of a number; one of them has to be there. -/
def fractionText? (s : Text) : Option Text :=
  match s with
  | [] => none
  | '.' :: s => do
    let fraction ← ungroup? Char.isDigit (s.takeWhile isGroupedDigit)
    let exponent ← exponentText? (s.dropWhile isGroupedDigit)
    some ('.' :: (fraction ++ exponent))
  | s => exponentText? s

/-- A number with a fraction or an exponent, or one of the words for what is no number. -/
def float? (s : Text) : Option Toml :=
  let (negative, magnitude) := cutSign s
  if magnitude = ['i', 'n', 'f'] then some (.float (.infinite negative))
  else if magnitude = ['n', 'a', 'n'] then some (.float .nan)
  else do
    let whole ← wholeDigits? (magnitude.takeWhile isGroupedDigit)
    let rest ← fractionText? (magnitude.dropWhile isGroupedDigit)
    let x ← Binary64.readMagnitude? negative (whole ++ rest)
    if x = .infinite false then none else some (.float x)

/-- The value that a word writes. -/
def ofWord? (s : Text) : Option Toml :=
  if s = ['t', 'r', 'u', 'e'] then some (.boolean true)
  else if s = ['f', 'a', 'l', 's', 'e'] then some (.boolean false)
  else if isMoment s then some (.moment s)
  else (integer? s).or (float? s)

/-- Whether a word ends before a character. -/
def endsWord (c : Char) : Bool :=
  c = ' ' || c = '\t' || c = '\n' || c = '#' || c = ',' || c = ']' || c = '}'

/-- The word at the beginning of a text; a date may have its time after a blank. -/
def cutWord (s : Text) : Text × Text :=
  let word := s.takeWhile (!endsWord ·)
  let rest := s.dropWhile (!endsWord ·)
  match rest with
  | ' ' :: more =>
    let time := more.takeWhile (!endsWord ·)
    if isDate word ∧ time ≠ [] then (word ++ 'T' :: time, more.dropWhile (!endsWord ·))
    else (word, rest)
  | _ => (word, rest)

end Toml
end SvgEdit
