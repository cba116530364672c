import SvgEdit.Markup.Document
import SvgEdit.Markup.Fault
import SvgEdit.Text.Blank

/-!
# Documents from pieces

Pieces are put together one by one. An assembly is what has been put together so far: the elements
that are open, the root once it is complete, and the raw pieces around it. `Document.parse` reads
pieces and assembles them; the first fault in the order of the text decides what is reported.
-/
namespace SvgEdit

/-- How a piece that is not a tag is kept: the declaration of a document type in one spelling. -/
def Piece.kept : Piece → Text
  | doctype _ content =>
    ['<', '!', 'D', 'O', 'C', 'T', 'Y', 'P', 'E', ' '] ++ content.dropWhile isSpace ++ ['>']
  | p => p.source

/-- What has been put together so far. -/
structure Assembly where
  /-- The elements that are open, the innermost first. -/
  opened : List Element
  prolog : List Text
  root : Option Element
  epilog : List Text
deriving DecidableEq, Repr

namespace Assembly

def addRaw (a : Assembly) (source : Text) : Assembly :=
  match a.opened with
  | e :: outer => { a with opened := e.push (.raw source .nil) :: outer }
  | [] =>
    if a.root.isNone then { a with prolog := a.prolog ++ [source] }
    else { a with epilog := a.epilog ++ [source] }

def addElement (a : Assembly) (e : Element) : Except DocumentFault Assembly :=
  match a.opened with
  | outer :: rest => .ok { a with opened := outer.push (.element e.tag e.content .nil) :: rest }
  | [] => if a.root.isNone then .ok { a with root := some e } else .error (.secondRoot e.name)

/-- Closes the innermost open element, which has to have the given name. -/
def close (a : Assembly) (name : Text) : Except DocumentFault Assembly :=
  match a.opened with
  | [] => .error (.unexpectedEnd name)
  | e :: outer =>
    if e.name = name then { a with opened := outer }.addElement e
    else .error (.mismatchedEnd e.name name)

/-- The element of a start or empty tag. -/
def tagElement (inside : Text) (selfClosing : Bool) : Except DocumentFault Element :=
  match readAttributes inside with
  | .ok attributes => .ok ⟨⟨tagName inside, attributes, selfClosing⟩, .nil⟩
  | .error (.attribute fault) => .error (.attribute fault)
  | .error (.escape fault) => .error (.escape fault)

/-- Adds one piece. Text at the top level has to be blank. -/
def add (a : Assembly) : Piece → Except DocumentFault Assembly
  | .startTag inside =>
    (tagElement inside false).map fun e => { a with opened := e :: a.opened }
  | .emptyTag inside =>
    match tagElement inside true with
    | .ok e => a.addElement e
    | .error fault => .error fault
  | .endTag inside => a.close (Piece.endName inside)
  | .text run =>
    if a.opened = [] ∧ ¬ Text.isBlankText run then .error .textOutsideRoot else .ok (a.addRaw run)
  | p => .ok (a.addRaw p.kept)

/-- Adds pieces in order, up to the first fault. -/
def addAll (a : Assembly) : List Piece → Except DocumentFault Assembly
  | [] => .ok a
  | p :: ps =>
    match a.add p with
    | .ok b => b.addAll ps
    | .error fault => .error fault

/-- The document, once all pieces are there. -/
def finish (a : Assembly) : Except DocumentFault Document :=
  match a.opened with
  | e :: _ => .error (.unclosed e.name)
  | [] =>
    match a.root with
    | some root => .ok ⟨a.prolog, root, a.epilog⟩
    | none => .error .noRoot

end Assembly

/-- The mark that may stand before a text to tell its byte order. -/
def byteOrderMark : Char := '\ufeff'

/-- A byte order mark at the beginning, and the text after it. -/
def splitMark (s : Text) : Text × Text :=
  match s with
  | c :: body => if c = byteOrderMark then ([c], body) else ([], s)
  | [] => ([], [])

/--
The document that a text holds. A byte order mark at the beginning is kept; a second one after it is
dropped and not counted in positions.
-/
def Document.parse (s : Text) : Except DocumentFault Document :=
  let (mark, body) := splitMark s
  let (pieces, fault) := readPieces (splitMark body).2
  let start : Assembly := ⟨[], if mark = [] then [] else [mark], none, []⟩
  match start.addAll pieces with
  | .error fault => .error fault
  | .ok a =>
    match fault with
    | some (fault, position) => .error (.malformed fault (Text.size mark + position))
    | none => a.finish

end SvgEdit
