import SvgEdit.Json.Reading
import SvgEdit.Request.Basic

/-!
# Reading requests

A request is the text of a JSON object. The five operations have shapes of their own and may come
once each; every other member is kept as it is. Numbers left out have defaults.
-/
namespace SvgEdit
namespace Request

open Json (Tree Members Items NumberRecord Fault)

/-! ## Records of numbers -/

def translateRecord : NumberRecord := ⟨"Translate", [⟨['x'], false⟩, ⟨['y'], false⟩]⟩

def rotateRecord : NumberRecord :=
  ⟨"Rotate", [⟨"angle".toList, false⟩, ⟨['c', 'x'], true⟩, ⟨['c', 'y'], true⟩]⟩

def scaleRecord : NumberRecord := ⟨"Scale", [⟨['x'], false⟩, ⟨['y'], true⟩]⟩

def skewRecord : NumberRecord := ⟨"Skew", [⟨['x'], false⟩, ⟨['y'], false⟩]⟩

/-- A number of a record, by its place. -/
def numberAt? (numbers : List (Option Binary64)) (place : Nat) : Option Binary64 :=
  (numbers[place]?).join

def readTranslate (tree : Tree) : Except Fault Translate :=
  (translateRecord.read 1 tree).map fun numbers =>
    ⟨(numberAt? numbers 0).getD .zero, (numberAt? numbers 1).getD .zero⟩

def readRotate (tree : Tree) : Except Fault Rotate :=
  (rotateRecord.read 1 tree).map fun numbers =>
    ⟨(numberAt? numbers 0).getD .zero, numberAt? numbers 1, numberAt? numbers 2⟩

def readScale (tree : Tree) : Except Fault Scale :=
  (scaleRecord.read 1 tree).map fun numbers =>
    ⟨(numberAt? numbers 0).getD (.ofNat 1), numberAt? numbers 1⟩

def readSkew (tree : Tree) : Except Fault Skew :=
  (skewRecord.read 1 tree).map fun numbers =>
    ⟨(numberAt? numbers 0).getD .zero, (numberAt? numbers 1).getD .zero⟩

def readMatrix (tree : Tree) : Except Fault (List Binary64) :=
  match tree with
  | .array items => items.readAll Tree.readNumber
  | tree => .error (tree.unexpected "a sequence")

/-! ## Members -/

/-- The keys that have shapes of their own. -/
inductive OperationKey
  | translate
  | rotate
  | scale
  | skew
  | matrix
deriving DecidableEq, Repr

namespace OperationKey

def name : OperationKey → String
  | translate => "translate"
  | rotate => "rotate"
  | scale => "scale"
  | skew => "skew"
  | matrix => "matrix"

def all : List OperationKey := [translate, rotate, scale, skew, matrix]

def ofText? (key : Text) : Option OperationKey := all.find? (·.name.toList = key)

end OperationKey

/-- A value that may be `null`. -/
def readOptional {α : Type} (reader : Tree → Except Fault α) : Tree → Except Fault (Option α)
  | .null => .ok none
  | tree => (reader tree).map some

/-- The request with the value of one operation read. -/
def withOperation (r : Request) (key : OperationKey) (tree : Tree) : Except Fault Request :=
  match key with
  | .translate => (readOptional readTranslate tree).map fun translate => { r with translate }
  | .rotate => (readOptional readRotate tree).map fun rotate => { r with rotate }
  | .scale => (readOptional readScale tree).map fun scale => { r with scale }
  | .skew => (readOptional readSkew tree).map fun skew => { r with skew }
  | .matrix => (readOptional readMatrix tree).map fun matrix => { r with matrix }

/-- The request with a value kept under a key. -/
def withOverride (r : Request) (key : Text) (value : Json) : Request :=
  { r with overrides := Json.insert key value r.overrides }

/-- Adds members to a request; `seen` are the operations that were met. -/
def addMembers (r : Request) (seen : List OperationKey) : Members → Except Fault Request
  | .closed => .ok r
  | .broken at_ => .error (.text at_.read)
  | .member key value next => do
    let key ← key.mapError .text
    match OperationKey.ofText? key with
    | some operation =>
      if operation ∈ seen then .error (.shape (.duplicateField key))
      else
        let r ← r.withOperation operation value
        r.addMembers (operation :: seen) next
    | none =>
      let value ← (value.capture 1).mapError .text
      (r.withOverride key value).addMembers seen next

/-- The request that a tree holds. -/
def ofTree : Tree → Except Fault Request
  | .object members => addMembers {} [] members
  | tree => .error (tree.unexpected "struct TransformRequest")

/-- The request that a text holds. -/
def parse (s : Text) : Except Fault Request := Json.readText ofTree s

end Request
end SvgEdit
