import SvgEdit.Text.Basic

/-!
# Attributes

An attribute has a name and a value, and while its value is the one read, also the way it was
spelled. A list of attributes keeps the order in which names came; setting a value keeps its place.
-/
namespace SvgEdit

/-- The two marks that may stand around a value. -/
inductive QuoteMark
  | double
  | single
deriving DecidableEq, Repr

namespace QuoteMark

def char : QuoteMark → Char
  | double => '"'
  | single => '\''

def ofChar? (c : Char) : Option QuoteMark :=
  if c = '"' then some double else if c = '\'' then some single else none

theorem ofChar?_eq_some_iff {c : Char} {q : QuoteMark} : ofChar? c = some q ↔ c = q.char := by
  unfold ofChar?
  split
  · next h => subst h; cases q <;> decide
  · next notDouble =>
    split
    · next h => subst h; cases q <;> decide
    · next notSingle => cases q <;> simp [char, notDouble, notSingle]

end QuoteMark

/-- How a value was spelled: the text between the quotes, and the quotes. Neither is kept without the other. -/
structure Spelling where
  raw : Text
  quote : QuoteMark
deriving DecidableEq, Repr

/--
An attribute. Raw text and quotes are one field, `spelling`: a value that was changed or added has no raw text,
and its quotes are double ones, as nothing but double quotes is ever written around it.
-/
structure Attribute where
  name : Text
  value : Text
  spelling : Option Spelling
deriving DecidableEq, Repr

/-- The attribute, its spelling forgotten. -/
def Attribute.unspelled (a : Attribute) : Attribute := { a with spelling := none }

/-- The attributes of an element, in order. -/
abbrev Attributes := List Attribute

namespace Attributes

/-- The value under a name. -/
def value? (as : Attributes) (name : Text) : Option Text :=
  (as.find? (·.name = name)).map (·.value)

def has (as : Attributes) (name : Text) : Bool := as.any (·.name = name)

/--
Gives a name a value. An equal value stays as it is spelled, another one loses its spelling and
keeps its place, and a new name comes last.
-/
def set (name value : Text) : Attributes → Attributes
  | [] => [⟨name, value, none⟩]
  | a :: as =>
    if a.name = name then
      (if a.value = value then a else { a with value, spelling := none }) :: as
    else a :: set name value as

/-- The attributes, their spelling forgotten. -/
def unspelled (as : Attributes) : Attributes := as.map Attribute.unspelled

/-! ## Reading back what was set -/

theorem value?_nil (name : Text) : value? [] name = none := rfl

theorem value?_cons (a : Attribute) (as : Attributes) (name : Text) :
    value? (a :: as) name = if a.name = name then some a.value else value? as name := by
  by_cases h : a.name = name <;> simp [value?, h]

theorem value?_set_self (as : Attributes) (name value : Text) :
    (as.set name value).value? name = some value := by
  induction as with
  | nil => simp [set, value?_cons]
  | cons a as ih =>
    by_cases same : a.name = name
    · by_cases equal : a.value = value <;> simp [set, same, equal, value?_cons]
    · simp [set, same, value?_cons, ih]

theorem value?_set_of_ne (as : Attributes) {name other : Text} (value : Text) (ne : other ≠ name) :
    (as.set name value).value? other = as.value? other := by
  induction as with
  | nil => simp [set, value?_cons, value?_nil, ne.symm]
  | cons a as ih =>
    by_cases same : a.name = name
    · by_cases equal : a.value = value <;> simp [set, same, equal, value?_cons, ne.symm]
    · simp [set, same, value?_cons, ih]

end Attributes
end SvgEdit
