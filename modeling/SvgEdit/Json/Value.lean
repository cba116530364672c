import SvgEdit.Number.Notation

/-!
# JSON values and their text

A value keeps the order of the members of its objects. `compact` writes it without blanks, `pretty`
one item or member a line, two blanks for each level. Only quotes, backslashes and control
characters are escaped.
-/
namespace SvgEdit

/-- A number: whole numbers of 64 bits keep their kind. -/
inductive JsonNumber
  | natural (n : Nat)
  /-- The whole number `-n`. -/
  | negative (n : Nat)
  | float (x : Binary64)
deriving DecidableEq, Repr

/-- A JSON value. -/
inductive Json
  | null
  | bool (b : Bool)
  | number (n : JsonNumber)
  | string (s : Text)
  | array (items : List Json)
  | object (members : List (Text × Json))
deriving Repr

namespace JsonNumber

def toBinary64 : JsonNumber → Binary64
  | natural n => .ofNat n
  | negative n => .ofInt (-n)
  | float x => x

def text : JsonNumber → Text
  | natural n => Text.ofNat n
  | negative n => '-' :: Text.ofNat n
  | float x => x.floating

end JsonNumber

namespace Json

def ofNat (n : Nat) : Json := .number (.natural n)

def ofInt (n : Int) : Json :=
  if n < 0 then .number (.negative n.natAbs) else .number (.natural n.natAbs)

/-- Puts a member into an object: the last value counts, in the place of the first. -/
def insert (key : Text) (value : Json) : List (Text × Json) → List (Text × Json)
  | [] => [(key, value)]
  | (k, v) :: rest => if k = key then (k, value) :: rest else (k, v) :: insert key value rest

/-! ## Text -/

/-- A digit of base sixteen. -/
def hexDigit (n : Nat) : Char :=
  if n < 10 then Char.ofNat ('0'.toNat + n) else Char.ofNat ('a'.toNat + (n - 10))

/-- A character as it stands between quotes. -/
def escapeChar (c : Char) : Text :=
  if c = '"' then ['\\', '"']
  else if c = '\\' then ['\\', '\\']
  else if c = '\x08' then ['\\', 'b']
  else if c = '\x0c' then ['\\', 'f']
  else if c = '\n' then ['\\', 'n']
  else if c = '\r' then ['\\', 'r']
  else if c = '\t' then ['\\', 't']
  else if c.toNat < 32 then ['\\', 'u', '0', '0', hexDigit (c.toNat / 16), hexDigit (c.toNat % 16)]
  else [c]

/-- Text between quotes. -/
def quoted (s : Text) : Text := '"' :: (s.flatMap escapeChar ++ ['"'])

def boolText (b : Bool) : Text :=
  if b then ['t', 'r', 'u', 'e'] else ['f', 'a', 'l', 's', 'e']

mutual

/-- The text without blanks. -/
def compact : Json → Text
  | null => ['n', 'u', 'l', 'l']
  | bool b => boolText b
  | number n => n.text
  | string s => quoted s
  | array items => '[' :: (Text.joinWith [','] (compactItems items) ++ [']'])
  | object members => '{' :: (Text.joinWith [','] (compactMembers members) ++ ['}'])

def compactItems : List Json → List Text
  | [] => []
  | item :: rest => item.compact :: compactItems rest

def compactMembers : List (Text × Json) → List Text
  | [] => []
  | (key, value) :: rest => (quoted key ++ ':' :: value.compact) :: compactMembers rest

end

/-- A new line at a level. -/
def newLine (level : Nat) : Text := '\n' :: List.replicate (2 * level) ' '

/-- The parts of an array or object, each on a line of its own. -/
def block (opening closing : Char) (level : Nat) (parts : List Text) : Text :=
  if parts = [] then [opening, closing]
  else
    opening :: (newLine (level + 1) ++ Text.joinWith (',' :: newLine (level + 1)) parts
      ++ newLine level ++ [closing])

mutual

/-- The text with one item or member a line, the value itself standing at `level`. -/
def prettyAt (level : Nat) : Json → Text
  | null => ['n', 'u', 'l', 'l']
  | bool b => boolText b
  | number n => n.text
  | string s => quoted s
  | array items => block '[' ']' level (prettyItems (level + 1) items)
  | object members => block '{' '}' level (prettyMembers (level + 1) members)

def prettyItems (level : Nat) : List Json → List Text
  | [] => []
  | item :: rest => item.prettyAt level :: prettyItems level rest

def prettyMembers (level : Nat) : List (Text × Json) → List Text
  | [] => []
  | (key, value) :: rest =>
    (quoted key ++ ':' :: ' ' :: value.prettyAt level) :: prettyMembers level rest

end

/-- The text with one item or member a line. -/
def pretty (j : Json) : Text := j.prettyAt 0

end Json
end SvgEdit
