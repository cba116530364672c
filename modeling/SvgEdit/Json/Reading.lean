import SvgEdit.Json.Tree
import SvgEdit.Text.Visible

/-!
# Reading values of a given shape

Trees are read in the order of the text. `capture` takes any value, `skip` passes over one, and the
readers of numbers, records and lists say what they found where they expected something else.
Brackets may be nested 127 deep; only what is passed over may go deeper.
-/
namespace SvgEdit
namespace Json

/-! ## Faults -/

/-- What was found where something else was expected. -/
inductive Found
  | null
  | bool (b : Bool)
  | integer (text : Text)
  | float (text : Text)
  | string (s : Text)
  | sequence
  | map
deriving DecidableEq, Repr

/-- Why the value has not the expected shape. -/
inductive ShapeFault
  | wrongType (found : Found) (expected : String)
  | wrongLength (length : Nat) (expected : String)
  | duplicateField (name : Text)
  | unknownVariant (found : Text) (known : List String)
  | notSingle
deriving DecidableEq, Repr

/-- Why a text cannot be read as a value of a given shape. -/
inductive Fault
  | text (b : JsonBreak)
  | shape (fault : ShapeFault)
deriving DecidableEq, Repr

/-- How a value is told in a fault. -/
def Found.ofValue : Json → Found
  | .null => null
  | .bool b => bool b
  | .number (.float x) => float x.floating
  | .number n => integer n.text
  | .string s => string s
  | .array _ => sequence
  | .object _ => map

def Found.description : Found → String
  | null => "null"
  | bool b => s!"boolean `{b}`"
  | integer text => "integer `" ++ String.ofList text ++ "`"
  | float text => "floating point `" ++ String.ofList text ++ "`"
  | string s => "string " ++ String.ofList (Text.visible s)
  | sequence => "sequence"
  | map => "map"

def ShapeFault.message : ShapeFault → String
  | wrongType found expected => s!"invalid type: {found.description}, expected {expected}"
  | wrongLength length expected => s!"invalid length {length}, expected {expected}"
  | duplicateField name => "duplicate field `" ++ String.ofList name ++ "`"
  | unknownVariant found known =>
    "unknown variant `" ++ String.ofList found ++ "`, expected one of "
      ++ ", ".intercalate (known.map fun name => s!"`{name}`")
  | notSingle => "invalid value: map, expected map with a single key"

/-! ## Any value -/

/-- How deep brackets may be nested. -/
def maxDepth : Nat := 127

mutual

/-- The value of a tree inside `depth` brackets. -/
def Tree.capture (depth : Nat) : Tree → Except JsonBreak Json
  | .broken at_ => .error at_.read
  | .null => .ok .null
  | .bool b => .ok (.bool b)
  | .number n => n.map .number
  | .string s => s.map .string
  | .array items =>
    if depth < maxDepth then (items.capture (depth + 1)).map .array else .error .malformed
  | .object members =>
    if depth < maxDepth then
      (members.capture (depth + 1)).map fun pairs =>
        .object (pairs.foldl (fun all (key, value) => insert key value all) [])
    else .error .malformed

def Items.capture (depth : Nat) : Items → Except JsonBreak (List Json)
  | .closed => .ok []
  | .broken at_ => .error at_.read
  | .item value next => do
    let value ← value.capture depth
    let rest ← next.capture depth
    pure (value :: rest)

def Members.capture (depth : Nat) : Members → Except JsonBreak (List (Text × Json))
  | .closed => .ok []
  | .broken at_ => .error at_.read
  | .member key value next => do
    let key ← key
    let value ← value.capture depth
    let rest ← next.capture depth
    pure ((key, value) :: rest)

end

mutual

/-- Passes over a value of any depth. -/
def Tree.skip : Tree → Except JsonBreak Unit
  | .broken at_ => .error at_.skip
  | .array items => items.skip
  | .object members => members.skip
  | _ => .ok ()

def Items.skip : Items → Except JsonBreak Unit
  | .closed => .ok ()
  | .broken at_ => .error at_.skip
  | .item value next => do
    value.skip
    next.skip

def Members.skip : Members → Except JsonBreak Unit
  | .closed => .ok ()
  | .broken at_ => .error at_.skip
  | .member _ value next => do
    value.skip
    next.skip

end

/-- Reads a whole text with a reader of trees; nothing may follow the value. -/
def readText {α : Type} (reader : Tree → Except Fault α) (s : Text) : Except Fault α := do
  let (tree, more) := Tree.ofText s
  let value ← reader tree
  if more then .error (.text .malformed) else pure value

/-- Any value. -/
def parse (s : Text) : Except Fault Json :=
  readText (fun tree => (tree.capture 0).mapError .text) s

/-! ## Values of a given shape -/

/-- What stands in a tree instead of what was expected. -/
def Tree.unexpected (expected : String) : Tree → Fault
  | .broken at_ => .text at_.read
  | .null => .shape (.wrongType .null expected)
  | .bool b => .shape (.wrongType (.bool b) expected)
  | .number (.ok (.float x)) => .shape (.wrongType (.float x.floating) expected)
  | .number (.ok n) => .shape (.wrongType (.integer n.text) expected)
  | .number (.error b) => .text b
  | .string (.ok s) => .shape (.wrongType (.string s) expected)
  | .string (.error b) => .text b
  | .array _ => .shape (.wrongType .sequence expected)
  | .object _ => .shape (.wrongType .map expected)

/-- A number of 64 bits. -/
def Tree.readNumber : Tree → Except Fault Binary64
  | .number (.ok n) => .ok n.toBinary64
  | tree => .error (tree.unexpected "f64")

/-- The items of an array, each read by `reader`. -/
def Items.readAll {α : Type} (reader : Tree → Except Fault α) : Items → Except Fault (List α)
  | .closed => .ok []
  | .broken at_ => .error (.text at_.read)
  | .item value next => do
    let value ← reader value
    let rest ← next.readAll reader
    pure (value :: rest)

/-- A field of a record of numbers. -/
structure NumberField where
  name : Text
  /-- `null` stands for no number, and an array of fields has to hold it. -/
  optional : Bool
deriving DecidableEq, Repr

/-- The number in a field, if there is one. -/
def NumberField.read (field : NumberField) (tree : Tree) : Except Fault (Option Binary64) :=
  match field.optional, tree with
  | true, .null => .ok none
  | _, tree => tree.readNumber.map some

/-- A record of numbers: its name, and its fields in order. -/
structure NumberRecord where
  name : String
  fields : List NumberField
deriving DecidableEq, Repr

namespace NumberRecord

def description (r : NumberRecord) : String := "struct " ++ r.name

/-- The fields that were met, each with the number in it. -/
abbrev Seen := List (Text × Option Binary64)

/-- Reads the members of an object; members that are no fields are passed over. -/
def readMembers (r : NumberRecord) (seen : Seen) : Members → Except Fault Seen
  | .closed => .ok seen
  | .broken at_ => .error (.text at_.read)
  | .member key value next => do
    let key ← key.mapError .text
    match r.fields.find? (·.name = key) with
    | none =>
      value.skip.mapError .text
      r.readMembers seen next
    | some field =>
      if (seen.lookup key).isSome then .error (.shape (.duplicateField key))
      else
        let number ← field.read value
        r.readMembers (seen ++ [(key, number)]) next

/-- Reads the items of an array as the fields in order, from the one at `index` on. -/
def readItems (r : NumberRecord) (index : Nat) :
    List NumberField → Items → Except Fault (List (Option Binary64))
  | [], .closed => .ok []
  | [], .broken at_ => .error (.text at_.read)
  | [], .item .. => .error (.text .malformed)
  | _ :: _, .broken at_ => .error (.text at_.read)
  | field :: fields, .closed =>
    if field.optional then
      let size := index + fields.length + 1
      .error (.shape (.wrongLength index s!"{r.description} with {size} elements"))
    else do
      let rest ← r.readItems (index + 1) fields .closed
      pure (none :: rest)
  | field :: fields, .item value next => do
    let number ← field.read value
    let rest ← r.readItems (index + 1) fields next
    pure (number :: rest)

/-- The numbers in the fields of a record, inside `depth` brackets. -/
def read (r : NumberRecord) (depth : Nat) (tree : Tree) : Except Fault (List (Option Binary64)) :=
  match tree with
  | .array items =>
    if depth < maxDepth then r.readItems 0 r.fields items else .error (.text .malformed)
  | .object members =>
    if depth < maxDepth then
      (r.readMembers [] members).map fun seen =>
        r.fields.map fun field => (seen.lookup field.name).join
    else .error (.text .malformed)
  | tree => .error (tree.unexpected r.description)

end NumberRecord
end Json
end SvgEdit
