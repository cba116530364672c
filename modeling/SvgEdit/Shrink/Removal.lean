import SvgEdit.Text.Blank
import SvgEdit.Text.Word

/-!
# Removing parts of a text

Comments, metadata, attributes without a value, and declarations of editors' names are found in the
text as such, from left to right, without regard to the markup around them. Each function whose name
begins with `after` recognises one such part at the beginning of a text, and gives what follows it.
-/
namespace SvgEdit
namespace Shrink

/-- The text without the parts that `after?` recognises. -/
def remove (after? : Text → Option Text) (s : Text) : Text :=
  Text.substitute (fun s => (after? s).map ([], ·)) s

/-- The characters of names of elements and attributes. -/
def isNamePart (c : Char) : Bool := Text.isWord c || c = ':' || c = '-'

/-- What follows one blank or more. -/
def afterBlanks? (s : Text) : Option Text :=
  match s with
  | c :: rest => if Text.isBlank c then some (rest.dropWhile Text.isBlank) else none
  | [] => none

/-- What follows one character of a name or more. -/
def afterName? (s : Text) : Option Text :=
  match s with
  | c :: rest => if isNamePart c then some (rest.dropWhile isNamePart) else none
  | [] => none

/-- What follows a given character. -/
def afterChar? (c : Char) (s : Text) : Option Text :=
  match s with
  | d :: rest => if d = c then some rest else none
  | [] => none

/-- What follows the first place where a given text stands. -/
def afterFirst? (mark : Text) (s : Text) : Option Text := (Text.cut? mark s).map (·.2)

/-! ## Comments -/

/-- A comment ends at the first `-->`. -/
def afterComment? (s : Text) : Option Text :=
  (Text.dropPrefix? ['<', '!', '-', '-'] s).bind (afterFirst? ['-', '-', '>'])

def removeComments (s : Text) : Text := remove afterComment? s

/-! ## Metadata -/

def metadataStart : Text := "<metadata".toList

def metadataEnd : Text := "</metadata>".toList

/--
A start tag and all up to the first end tag; without an end tag, an empty tag. Tags end at the first
`>`, and attributes follow a blank.
-/
def afterMetadata? (s : Text) : Option Text :=
  match Text.dropPrefix? metadataStart s with
  | none => none
  | some s =>
    match s with
    | [] => none
    | c :: rest =>
      if c = '>' then afterFirst? metadataEnd rest
      else if c = '/' then afterChar? '>' rest
      else if Text.isBlank c then
        match Text.cut? ['>'] rest with
        | none => none
        | some (inside, rest) =>
          match afterFirst? metadataEnd rest with
          | some rest' => some rest'
          | none => if inside.getLast? = some '/' then some rest else none
      else none

def removeMetadata (s : Text) : Text := remove afterMetadata? s

/-! ## Attributes -/

/-- A name, `=` and two quotes next to each other, with blanks before and between. -/
def afterEmptyAttribute? (s : Text) : Option Text := do
  let s ← afterBlanks? s
  let s ← afterName? s
  let s ← afterChar? '=' (s.dropWhile Text.isBlank)
  match s.dropWhile Text.isBlank with
  | '"' :: '"' :: rest => some rest
  | '\'' :: '\'' :: rest => some rest
  | _ => none

def removeEmptyAttributes (s : Text) : Text := remove afterEmptyAttribute? s

def namespaceStart : Text := "xmlns:".toList

/-- Names that editors declare for themselves. -/
def editorNames : List Text :=
  ["inkscape", "sodipodi", "adobe", "ai", "graph", "sketch"].map String.toList

/-- A declaration of an editor's name between double quotes, with the blanks before it. -/
def afterEditorNamespace? (s : Text) : Option Text := do
  let s ← Text.dropPrefix? namespaceStart (s.dropWhile Text.isBlank)
  let s ← editorNames.findSome? fun name => Text.dropPrefix? (name ++ ['=', '"']) s
  afterFirst? ['"'] s

def removeEditorNamespaces (s : Text) : Text := remove afterEditorNamespace? s

end Shrink
end SvgEdit
