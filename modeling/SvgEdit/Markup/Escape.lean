import SvgEdit.Text.Basic

/-!
# Escaped attribute values

`escape` writes a value for double quotes: `<`, `&` and the quote become references. `unescape`
reads references back: five names, and numbers of code points. Positions in faults are bytes of the
value.
-/
namespace SvgEdit

/-! ## Writing -/

/-- The characters that become references between double quotes. -/
def escapedChars : List Char := ['<', '&', '"']

/-- A character as it stands between double quotes. -/
def escapeChar (c : Char) : Text :=
  if c = '<' then ['&', 'l', 't', ';']
  else if c = '&' then ['&', 'a', 'm', 'p', ';']
  else if c = '"' then ['&', 'q', 'u', 'o', 't', ';']
  else [c]

/-- A value as it stands between double quotes. Only a value with one of the characters is gone through. -/
def escape (s : Text) : Text :=
  if s.any (escapedChars.contains ·) then s.flatMap escapeChar else s

theorem escapeChar_of_other {c : Char} (other : c ∉ escapedChars) : escapeChar c = [c] := by
  simp only [escapedChars, List.mem_cons, List.not_mem_nil, or_false, not_or] at other
  rw [escapeChar, if_neg other.1, if_neg other.2.1, if_neg other.2.2]

/-- Going through a value without these characters changes nothing. -/
theorem flatMap_escapeChar_of_free {s : Text} (free : ∀ c ∈ s, c ∉ escapedChars) : s.flatMap escapeChar = s := by
  induction s with
  | nil => rfl
  | cons c s ih =>
    rw [List.flatMap_cons, escapeChar_of_other (free c List.mem_cons_self),
      ih fun d member => free d (List.mem_cons_of_mem c member), List.singleton_append]

theorem escape_of_free {s : Text} (free : ∀ c ∈ s, c ∉ escapedChars) : escape s = s := by
  have none : s.any (escapedChars.contains ·) = false := by
    rw [List.any_eq_false]
    exact fun c member found => free c member (List.contains_iff_mem.mp found)
  rw [escape, none]
  rfl

/-- Both ways come to the same. -/
theorem escape_eq (s : Text) : escape s = s.flatMap escapeChar := by
  by_cases free : ∀ c ∈ s, c ∉ escapedChars
  · rw [escape_of_free free, flatMap_escapeChar_of_free free]
  · rw [escape, if_pos]
    simpa using free

/-! ## Reading -/

/-- Why digits are not a number of 32 bits. -/
inductive IntegerFault
  | empty
  | invalidDigit
  | tooLarge
deriving DecidableEq, Repr

/-- Why an attribute value cannot be unescaped. -/
inductive EscapeFault
  /-- No `;` ends the reference that begins at `start`. -/
  | unterminated (start stop : Nat)
  /-- The name between `start` and `stop` stands for no character. -/
  | unknownName (start stop : Nat) (name : Text)
  /-- The number of a character has a sign. -/
  | signedNumber
  | badNumber (fault : IntegerFault)
  /-- No character has this number. -/
  | noCharacter (code : Nat)
  /-- The number of a character is zero. -/
  | zero
deriving DecidableEq, Repr

/-- The five names of characters. -/
def namedCharacter? (name : Text) : Option Char :=
  if name = ['l', 't'] then some '<'
  else if name = ['g', 't'] then some '>'
  else if name = ['a', 'm', 'p'] then some '&'
  else if name = ['a', 'p', 'o', 's'] then some '\''
  else if name = ['q', 'u', 'o', 't'] then some '"'
  else none

/-- The value of a digit, letters of both cases counting from ten. -/
def digitValue? (base : Nat) (c : Char) : Option Nat :=
  let value :=
    if '0' ≤ c ∧ c ≤ '9' then c.toNat - '0'.toNat
    else if 'a' ≤ c ∧ c ≤ 'z' then c.toNat - 'a'.toNat + 10
    else if 'A' ≤ c ∧ c ≤ 'Z' then c.toNat - 'A'.toNat + 10
    else base
  if value < base then some value else none

/-- Reads digits from left to right into a number that has to stay below 2^32. -/
def readDigits (base : Nat) : (value : Nat) → Text → Except IntegerFault Nat
  | value, [] => .ok value
  | value, c :: s =>
    match digitValue? base c with
    | none => .error .invalidDigit
    | some digit =>
      if value * base + digit < 0x100000000 then readDigits base (value * base + digit) s
      else .error .tooLarge

/-- The number of a character, without sign. -/
def readCode (base : Nat) (digits : Text) : Except EscapeFault Nat :=
  match digits with
  | [] => .error (.badNumber .empty)
  | c :: _ =>
    if c = '+' ∨ c = '-' then .error .signedNumber
    else (readDigits base 0 digits).mapError .badNumber

/-- The character with a given number, which is not zero. -/
def characterOfCode (code : Nat) : Except EscapeFault Char :=
  if code = 0 then .error .zero
  else if h : code.isValidChar then .ok (Char.ofNatAux code h)
  else .error (.noCharacter code)

/-- What the reference `&body;` stands for, its body beginning at byte `start`. -/
def referencedCharacter (start : Nat) (body : Text) : Except EscapeFault Char :=
  match body with
  | '#' :: 'x' :: digits => readCode 16 digits >>= characterOfCode
  | '#' :: digits => readCode 10 digits >>= characterOfCode
  | _ =>
    match namedCharacter? body with
    | some c => .ok c
    | none => .error (.unknownName start (start + Text.size body) body)

/--
Reads references, `position` being the byte reached. While a reference is open, `pending` holds the
byte of its `&` and the part of its body read so far, last character first.
-/
def unescapeFrom (position : Nat) (pending : Option (Nat × Text)) :
    Text → Except EscapeFault Text
  | [] =>
    match pending with
    | none => .ok []
    | some (start, _) => .error (.unterminated start position)
  | c :: s =>
    match pending with
    | none =>
      if c = '&' then unescapeFrom (position + 1) (some (position, [])) s
      else (unescapeFrom (position + c.utf8Size) none s).map (c :: ·)
    | some (start, body) =>
      if c = ';' then
        match referencedCharacter (start + 1) body.reverse with
        | .ok d => (unescapeFrom (position + 1) none s).map (d :: ·)
        | .error fault => .error fault
      else if c = '&' then .error (.unterminated start (position + Text.size (c :: s)))
      else unescapeFrom (position + c.utf8Size) (some (start, c :: body)) s

/-- The value that an escaped text stands for. -/
def unescape (s : Text) : Except EscapeFault Text := unescapeFrom 0 none s

end SvgEdit
