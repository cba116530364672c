import SvgEdit.Json.Value
import SvgEdit.Number.Reading

/-!
# Lexemes of JSON

Text is cut into brackets, commas, colons, words, numbers and strings. Some numbers and strings can
be passed over though they stand for nothing: numbers out of range and strings with half of a
surrogate pair. A lexeme that breaks off ends the list; it says what is wrong for who needs its
value and for who only passes over it.
-/
namespace SvgEdit

/-- What is wrong with a text: something that cannot stand there, or an end too early. -/
inductive JsonBreak
  | malformed
  | unfinished
deriving DecidableEq, Repr

/-- Where reading breaks off, for who needs the value and for who passes over it. -/
structure BreakOff where
  read : JsonBreak
  skip : JsonBreak
deriving DecidableEq, Repr

inductive Lexeme
  | openArray
  | closeArray
  | openObject
  | closeObject
  | comma
  | colon
  | null
  | bool (b : Bool)
  | number (n : Except JsonBreak JsonNumber)
  | string (s : Except JsonBreak Text)
  /-- A string that breaks off. -/
  | brokenString (at_ : BreakOff)
  /-- Anything else that breaks off. -/
  | broken (at_ : BreakOff)

/-! ## Numbers -/

/-- The parts of a number as it is written. -/
structure WrittenNumber where
  negative : Bool
  whole : Text
  fraction : Option Text
  /-- The sign of the exponent and its digits. -/
  exponent : Option (Bool × Text)
deriving DecidableEq, Repr

namespace WrittenNumber

/-- Adds digits to a significand of 64 bits as long as they fit; gives the digits left over. -/
def gather : (significand : Nat) → Text → Nat × Text
  | significand, [] => (significand, [])
  | significand, c :: s =>
    let next := significand * 10 + (c.toNat - '0'.toNat)
    if next < 0x10000000000000000 then gather next s else (significand, c :: s)

/-- The double nearest to 10^n. -/
def powerOfTen (n : Nat) : Binary64 := .ofNat (Nat.pow 10 n)

/--
A significand times 10^`exponent`, rounded at each step: one product or quotient with a power up to
10^308, after quotients by 10^308 for smaller exponents. There is no answer out of range.
-/
def scale (x : Binary64) (exponent : Int) : Option Binary64 :=
  if 308 < exponent then (if x.isZero then some x else none)
  else if 0 ≤ exponent then
    let y := x.mul (powerOfTen exponent.toNat)
    if y.isInfinite then none else some y
  else if -308 ≤ exponent then some (x.div (powerOfTen (-exponent).toNat))
  else if x.isZero then some x
  else scale (x.div (powerOfTen 308)) (exponent + 308)
termination_by (-exponent).toNat
decreasing_by omega

/-- The value of a written exponent, if it has 32 bits. -/
def exponentValue? (digits : Text) : Option Nat :=
  let value := digitsValue digits
  if value < 0x80000000 then some value else none

/-- The number with a fraction or an exponent, or too long for a whole number. -/
def float (n : WrittenNumber) (significand : Nat) (exponent : Int) : Except JsonBreak JsonNumber :=
  let signed (x : Binary64) : JsonNumber := .float (if n.negative then x.neg else x)
  let scaled (exponent : Int) : Except JsonBreak JsonNumber :=
    match scale (.ofNat significand) exponent with
    | some x => .ok (signed x)
    | none => .error .malformed
  match n.exponent with
  | none => scaled exponent
  | some (below, digits) =>
    match exponentValue? digits with
    | some value => scaled (if below then exponent - value else exponent + value)
    | none =>
      if significand ≠ 0 ∧ ¬ below then .error .malformed else .ok (signed .zero)

/-- The value of a number; out of range there is none. -/
def value (n : WrittenNumber) : Except JsonBreak JsonNumber :=
  let (significand, left) := gather 0 n.whole
  match n.fraction with
  | some fraction =>
    let (significand, dropped) := gather significand fraction
    n.float significand ((left.length : Int) - (fraction.length - dropped.length : Nat))
  | none =>
    if left ≠ [] ∨ n.exponent.isSome then n.float significand left.length
    else if ¬ n.negative then .ok (.natural significand)
    else if significand = 0 ∨ 0x8000000000000000 < significand then
      .ok (.float (Binary64.ofNat significand).neg)
    else .ok (.negative significand)

end WrittenNumber

/-- Digits that have to be there; at the end of the text they may be missing for who reads on. -/
def cutDigits (s : Text) : Except BreakOff (Text × Text) :=
  match s with
  | [] => .error ⟨.unfinished, .malformed⟩
  | c :: _ =>
    if c.isDigit then .ok (s.takeWhile Char.isDigit, s.dropWhile Char.isDigit)
    else .error ⟨.malformed, .malformed⟩

/-- The digits of a whole part: no zero stands before others. -/
def cutWhole (s : Text) : Except BreakOff (Text × Text) := do
  let (digits, rest) ← cutDigits s
  if digits.head? = some '0' ∧ digits.length ≠ 1 then .error ⟨.malformed, .malformed⟩
  else .ok (digits, rest)

def cutFraction (s : Text) : Except BreakOff (Option Text × Text) :=
  match s with
  | '.' :: s => do
    let (digits, rest) ← cutDigits s
    pure (some digits, rest)
  | s => .ok (none, s)

def cutExponent (s : Text) : Except BreakOff (Option (Bool × Text) × Text) :=
  match s with
  | [] => .ok (none, [])
  | c :: s' =>
    if c = 'e' ∨ c = 'E' then do
      let (below, s) : Bool × Text :=
        match s' with
        | '+' :: s => (false, s)
        | '-' :: s => (true, s)
        | s => (false, s)
      let (digits, rest) ← cutDigits s
      pure (some (below, digits), rest)
    else .ok (none, s)

/-- A number at the beginning of a text. -/
def cutNumber (s : Text) : Except BreakOff (WrittenNumber × Text) := do
  let (negative, s) : Bool × Text :=
    match s with
    | '-' :: s => (true, s)
    | s => (false, s)
  let (whole, s) ← cutWhole s
  let (fraction, s) ← cutFraction s
  let (exponent, s) ← cutExponent s
  pure (⟨negative, whole, fraction, exponent⟩, s)

/-! ## Strings -/

/-- What a string stands for, and what follows it. -/
structure StringScan where
  value : Except JsonBreak Text
  rest : Except JsonBreak Text

namespace StringScan

/-- Nothing more can be read. -/
def stop (b : JsonBreak) : StringScan := ⟨.error b, .error b⟩

/-- A character before what was scanned. -/
def before (c : Char) (scan : StringScan) : StringScan :=
  { scan with value := scan.value.map (c :: ·) }

/-- If `lone`, the string stands for nothing, but can be passed over. -/
def spoilIf (lone : Bool) (scan : StringScan) : StringScan :=
  if lone then { scan with value := .error .malformed } else scan

end StringScan

/-- The value of four digits of base sixteen. -/
def fourHex? (a b c d : Char) : Option Nat := do
  let a ← hexValue? a
  let b ← hexValue? b
  let c ← hexValue? c
  let d ← hexValue? d
  pure (((a * 16 + b) * 16 + c) * 16 + d)

/-- What is wrong where four digits of base sixteen should stand: four bytes are looked at. -/
def hexBreak (s : Text) : JsonBreak := if Text.size s < 4 then .unfinished else .malformed

def isLowSurrogate (n : Nat) : Bool := 0xDC00 ≤ n && n ≤ 0xDFFF

def isHighSurrogate (n : Nat) : Bool := 0xD800 ≤ n && n ≤ 0xDBFF

/-- The character that a pair of surrogates stands for. -/
def pairCharacter (high low : Nat) : Char :=
  Char.ofNat ((high - 0xD800) * 0x400 + (low - 0xDC00) + 0x10000)

/-- The character of a short escape. -/
def shortEscape? (c : Char) : Option Char :=
  if c = '"' ∨ c = '\\' ∨ c = '/' then some c
  else if c = 'b' then some '\x08'
  else if c = 'f' then some '\x0c'
  else if c = 'n' then some '\n'
  else if c = 'r' then some '\r'
  else if c = 't' then some '\t'
  else none

/--
Scans a string after its opening quote. `high` is the high surrogate just read, if one was: without
a low one after it the string stands for nothing.
-/
def scanString (high : Option Nat) : Text → StringScan
  | [] => .stop .unfinished
  | '"' :: rest => StringScan.spoilIf high.isSome ⟨.ok [], .ok rest⟩
  | '\\' :: [] => .stop .unfinished
  | '\\' :: 'u' :: a :: b :: c :: d :: rest =>
    match fourHex? a b c d, high with
    | none, _ => .stop (hexBreak (a :: b :: c :: d :: rest))
    | some n, some high =>
      if isLowSurrogate n then (scanString none rest).before (pairCharacter high n)
      else StringScan.spoilIf true (scanString (if isHighSurrogate n then some n else none) rest)
    | some n, none =>
      if isLowSurrogate n then StringScan.spoilIf true (scanString none rest)
      else if isHighSurrogate n then scanString (some n) rest
      else (scanString none rest).before (Char.ofNat n)
  | '\\' :: 'u' :: rest => .stop (hexBreak rest)
  | '\\' :: c :: rest =>
    match shortEscape? c with
    | some d => StringScan.spoilIf high.isSome ((scanString none rest).before d)
    | none => .stop .malformed
  | c :: rest =>
    if c.toNat < 32 then .stop .malformed
    else StringScan.spoilIf high.isSome ((scanString none rest).before c)

/-! ## All lexemes -/

def isJsonBlank (c : Char) : Bool := c = ' ' || c = '\n' || c = '\t' || c = '\r'

/-- A word, and what follows it; `s` is what stands where the word is expected. -/
def cutWord (word : Text) (lexeme : Lexeme) (s : Text) : Lexeme × Option Text :=
  match Text.dropPrefix? word s with
  | some rest => (lexeme, some rest)
  | none =>
    let b := if (Text.dropPrefix? s word).isSome then .unfinished else .malformed
    (.broken ⟨b, b⟩, none)

/-- The lexeme at the beginning of a text, and what follows it unless it breaks off. -/
def cutLexeme (c : Char) (s : Text) : Lexeme × Option Text :=
  if c = '[' then (.openArray, some s)
  else if c = ']' then (.closeArray, some s)
  else if c = '{' then (.openObject, some s)
  else if c = '}' then (.closeObject, some s)
  else if c = ',' then (.comma, some s)
  else if c = ':' then (.colon, some s)
  else if c = 'n' then cutWord ['u', 'l', 'l'] .null s
  else if c = 't' then cutWord ['r', 'u', 'e'] (.bool true) s
  else if c = 'f' then cutWord ['a', 'l', 's', 'e'] (.bool false) s
  else if c = '"' then
    match scanString none s with
    | ⟨value, .ok rest⟩ => (.string value, some rest)
    | ⟨.error read, .error skip⟩ => (.brokenString ⟨read, skip⟩, none)
    | ⟨.ok _, .error skip⟩ => (.brokenString ⟨skip, skip⟩, none)
  else if c = '-' ∨ c.isDigit then
    match cutNumber (c :: s) with
    | .ok (written, rest) => (.number written.value, some rest)
    | .error at_ => (.broken at_, none)
  else (.broken ⟨.malformed, .malformed⟩, none)

/-- The lexemes of a text, up to the first that breaks off. -/
def lexemes : Text → List Lexeme
  | [] => []
  | c :: s =>
    if isJsonBlank c then lexemes s
    else
      match cutLexeme c s with
      | (lexeme, none) => [lexeme]
      | (lexeme, some rest) =>
        if rest.length ≤ s.length then lexeme :: lexemes rest else [lexeme]
termination_by s => s.length
decreasing_by all_goals simp only [List.length_cons]; omega

end SvgEdit
