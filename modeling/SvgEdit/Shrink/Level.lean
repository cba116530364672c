import SvgEdit.Json.Reading

/-!
# Levels of shrinking

A level has a name by which it is asked for, and a count of places that it keeps in decimals.
-/
namespace SvgEdit
namespace Shrink

inductive Level
  | light
  | standard
  | aggressive
deriving DecidableEq, Repr

namespace Level

def name : Level → String
  | light => "light"
  | standard => "standard"
  | aggressive => "aggressive"

/-- The level with a name; the standard one has two. -/
def ofName? (name : String) : Option Level :=
  match name with
  | "light" => some light
  | "standard" | "default" => some standard
  | "aggressive" => some aggressive
  | _ => none

/-- The places kept in decimals where no other count is asked for. -/
def defaultPrecision : Level → Option Nat
  | light => none
  | standard => some 3
  | aggressive => some 2

/-- The names by which levels are asked for. -/
def knownNames : List String := ["light", "default", "standard", "aggressive"]

/-- The level with a name, or a fault that tells the known ones. -/
def ofText (name : Text) : Except Json.ShapeFault Level :=
  match ofName? (String.ofList name) with
  | some level => .ok level
  | none => .error (.unknownVariant name knownNames)

/-- The level that a JSON value names: a string, or an object with the name as its one key. -/
def ofJson : Json → Except Json.ShapeFault Level
  | .string name => ofText name
  | .object [(name, value)] =>
    match ofText name, value with
    | .ok level, .null => .ok level
    | .ok _, value => .error (.wrongType (.ofValue value) "unit")
    | .error fault, _ => .error fault
  | .object _ => .error .notSingle
  | value => .error (.wrongType (.ofValue value) "string or map")

end Level
end Shrink
end SvgEdit
