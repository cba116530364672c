import SvgEdit.Json.Value
import SvgEdit.Log
import SvgEdit.Markup.Content
import SvgEdit.Text.Blank

/-!
# Requests

A request moves, turns, scales, skews or maps an element, and gives attributes new values. Its
operations are written in one order, whatever order they were asked for in, and come after those the
element already has; operations with a number that is not finite are left out. Only the attributes
in `directNames` can be given values.
-/
namespace SvgEdit

structure Translate where
  x : Binary64
  y : Binary64
deriving DecidableEq, Repr

/-- The centre counts only if both of its numbers are there. -/
structure Rotate where
  angle : Binary64
  cx : Option Binary64
  cy : Option Binary64
deriving DecidableEq, Repr

/-- Without `y` both directions are scaled by `x`. -/
structure Scale where
  x : Binary64
  y : Option Binary64
deriving DecidableEq, Repr

structure Skew where
  x : Binary64
  y : Binary64
deriving DecidableEq, Repr

/-- What to do with an element. -/
structure Request where
  translate : Option Translate := none
  rotate : Option Rotate := none
  scale : Option Scale := none
  skew : Option Skew := none
  matrix : Option (List Binary64) := none
  /-- All other keys in order, each of them once. -/
  overrides : List (Text × Json) := []
deriving Repr

/-- The attributes that a request may give values, in the order in which they are given. -/
def directNames : List Text :=
  ["fill", "stroke", "stroke-width", "opacity", "x", "y", "cx", "cy", "r", "width", "height", "rx",
    "ry", "d"].map String.toList

/-- The name of the attribute that holds operations. -/
def transformName : Text := "transform".toList

/-- The fewest digits of a number; there is no negative zero. -/
def Binary64.unsignedZero (x : Binary64) : Text := if x.isZero then ['0'] else x.plain

/-! ## Operations -/

/-- An operation as it is written: its name and its numbers. -/
structure Operation where
  name : Text
  numbers : List Binary64
deriving DecidableEq, Repr

/-- The operation as it is written. -/
def Operation.text (op : Operation) : Text :=
  op.name ++ '(' :: (Text.joinWith [' '] (op.numbers.map Binary64.unsignedZero) ++ [')'])

/-- Whether all numbers are finite. -/
def allFinite (numbers : List Binary64) : Bool := numbers.all Binary64.isFinite

/-- An operation, unless one of its numbers is not finite. -/
def Operation.ifFinite (name : String) (numbers : List Binary64) : List Operation :=
  if allFinite numbers then [⟨name.toList, numbers⟩] else []

def Rotate.numbers (r : Rotate) : List Binary64 :=
  match r.cx, r.cy with
  | some cx, some cy => [r.angle, cx, cy]
  | _, _ => [r.angle]

def Scale.numbers (s : Scale) : List Binary64 := [s.x, s.y.getD s.x]

/-- One operation for each direction that is skewed. -/
def Skew.operations (s : Skew) : List Operation :=
  if allFinite [s.x, s.y] then
    (if s.x.isZero then [] else [⟨"skewX".toList, [s.x]⟩])
      ++ (if s.y.isZero then [] else [⟨"skewY".toList, [s.y]⟩])
  else []

namespace Request

/-- The operations of a request, in the order in which they are written. -/
def operations (r : Request) : List Operation :=
  r.translate.elim [] (fun t => Operation.ifFinite "translate" [t.x, t.y])
    ++ r.rotate.elim [] (fun t => Operation.ifFinite "rotate" t.numbers)
    ++ r.scale.elim [] (fun t => Operation.ifFinite "scale" t.numbers)
    ++ r.skew.elim [] Skew.operations
    ++ r.matrix.elim [] (fun m => if m.length = 6 then Operation.ifFinite "matrix" m else [])

/-- The operations of a request as they are written. -/
def tokens (r : Request) : List Text := r.operations.map Operation.text

/-- The operations of an element after a request, its present ones being `existing`. -/
def compose (r : Request) (existing : Option Text) : Option Text :=
  if r.tokens = [] then none
  else
    let added := Text.joinWith [' '] r.tokens
    match existing with
    | some present => some (if Text.trim present = [] then added else present ++ ' ' :: added)
    | none => some added

/-! ## Attributes -/

/-- The text of a value that is no array, object or null. -/
def scalarText? : Json → Option Text
  | .string s => some s
  | .number (.float x) => some x.unsignedZero
  | .number n => some n.text
  | .bool b => some (Json.boolText b)
  | _ => none

/-- The attributes that a request gives values, in order. -/
def directAttributes (r : Request) : List (Text × Text) :=
  directNames.filterMap fun name =>
    ((r.overrides.lookup name).bind scalarText?).map fun text => (name, text)

/-- The keys of a request that have no meaning. -/
def ignoredKeys (r : Request) : List Text :=
  (r.overrides.map (·.1)).filter (!directNames.contains ·)

/-- The element after a request: operations first, then attributes. -/
def apply (r : Request) (e : Element) : Element :=
  let composed :=
    match r.compose (e.attribute? transformName) with
    | some value => e.setAttribute transformName value
    | none => e
  r.directAttributes.foldl (fun e (name, value) => e.setAttribute name value) composed

/-! ## Log -/

/-- What is logged about an operation with numbers that are not finite. -/
def finiteLog (name : String) (numbers : List Binary64) : List LogLine :=
  if allFinite numbers then [] else [⟨"transform", s!"ignoring {name} with a non-finite value"⟩]

/-- What is logged while operations are written. -/
def operationsLog (r : Request) : List LogLine :=
  r.translate.elim [] (fun t => finiteLog "translate" [t.x, t.y])
    ++ r.rotate.elim [] (fun t => finiteLog "rotate" t.numbers)
    ++ r.scale.elim [] (fun t => finiteLog "scale" t.numbers)
    ++ r.skew.elim [] (fun t => finiteLog "skew" [t.x, t.y])
    ++ r.matrix.elim [] (fun m =>
      if m.length = 6 then finiteLog "matrix" m
      else [⟨"transform", s!"ignoring matrix with {m.length} values (need 6)"⟩])

/-- What is logged while attributes are given values. -/
def directLog (r : Request) : List LogLine :=
  directNames.filterMap fun name =>
    match r.overrides.lookup name with
    | some value =>
      if (scalarText? value).isNone then
        some ⟨"transform", "ignoring non-scalar value for `" ++ String.ofList name ++ "`"⟩
      else none
    | none => none

/-- What is logged while a request is applied to an element. -/
def applyLog (r : Request) : List LogLine := r.operationsLog ++ r.directLog

end Request
end SvgEdit
