import SvgEdit.Number.Reading

/-!
# Dates and times

A moment is a date, a time of day, or a date with a time and perhaps an offset. Days exist in their
months, and a minute may have a leap second. The checks take a part off the beginning of a text.
-/
namespace SvgEdit
namespace Toml

/-- Takes off a number of exactly `count` digits. -/
def cutCount (count : Nat) (s : Text) : Option (Nat × Text) :=
  let digits := s.take count
  if digits.length = count ∧ digits.all Char.isDigit then
    some (digitsValue digits, s.drop count)
  else none

/-- Takes off two digits that write a number in a range. -/
def cutPair (low high : Nat) (s : Text) : Option (Nat × Text) := do
  let (value, rest) ← cutCount 2 s
  if low ≤ value ∧ value ≤ high then some (value, rest) else none

def isLeapYear (year : Nat) : Bool := year % 4 = 0 && (year % 100 ≠ 0 || year % 400 = 0)

/-- The days of a month. -/
def daysIn (year month : Nat) : Nat :=
  if month = 2 then (if isLeapYear year then 29 else 28)
  else if month = 4 ∨ month = 6 ∨ month = 9 ∨ month = 11 then 30
  else 31

/-- Takes off a date. -/
def dropDate? (s : Text) : Option Text := do
  let (year, s) ← cutCount 4 s
  let s ← Text.dropPrefix? ['-'] s
  let (month, s) ← cutPair 1 12 s
  let s ← Text.dropPrefix? ['-'] s
  let (_, s) ← cutPair 1 (daysIn year month) s
  some s

/-- Takes off the fraction of a second, if there is one. -/
def dropFraction? (s : Text) : Option Text :=
  match s with
  | '.' :: s =>
    if (s.takeWhile Char.isDigit).isEmpty then none else some (s.dropWhile Char.isDigit)
  | s => some s

/-- Takes off a time of day. -/
def dropTime? (s : Text) : Option Text := do
  let (_, s) ← cutPair 0 23 s
  let s ← Text.dropPrefix? [':'] s
  let (_, s) ← cutPair 0 59 s
  let s ← Text.dropPrefix? [':'] s
  let (_, s) ← cutPair 0 60 s
  dropFraction? s

/-- Takes off a sign with hours and minutes. -/
def dropSigned? (s : Text) : Option Text := do
  let (_, s) ← cutPair 0 23 s
  let s ← Text.dropPrefix? [':'] s
  let (_, s) ← cutPair 0 59 s
  some s

/-- Takes off the offset of a time, if there is one. -/
def dropOffset? (s : Text) : Option Text :=
  match s with
  | [] => some []
  | c :: rest =>
    if c = 'Z' ∨ c = 'z' then some rest
    else if c = '+' ∨ c = '-' then dropSigned? rest
    else some s

/-- Whether a text is a time of day with an optional offset. -/
def isTimeWithOffset (s : Text) : Bool := (dropTime? s).bind dropOffset? = some []

/-- Whether a text is a date, a time, or a date and a time with `T` between them. -/
def isMoment (s : Text) : Bool :=
  dropTime? s = some [] ||
    match dropDate? s with
    | some [] => true
    | some (c :: time) => (c = 'T' || c = 't') && isTimeWithOffset time
    | none => false

/-- Whether a text is a date alone. -/
def isDate (s : Text) : Bool := dropDate? s = some []

end Toml
end SvgEdit
