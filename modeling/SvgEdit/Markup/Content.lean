import SvgEdit.Markup.Tag

/-!
# Elements and what is inside them

An element is a tag and its content: raw pieces of source and further elements, in order. Elements
are addressed by paths, lists of places counted from zero at each level, raw pieces included. The
elements of a content are listed parents first; `elementAt?` and `modifyAt` follow a path.
-/
namespace SvgEdit

/-- An element apart from what is inside it. -/
structure Tag where
  name : Text
  attributes : Attributes
  /-- Written as an empty tag as long as nothing is inside. -/
  selfClosing : Bool
deriving DecidableEq, Repr

/-- What is inside an element: raw pieces of source and elements, one after the other. -/
inductive Content
  | nil
  | raw (source : Text) (next : Content)
  | element (tag : Tag) (inside next : Content)
deriving DecidableEq, Repr

structure Element where
  tag : Tag
  content : Content
deriving DecidableEq, Repr

/-- Places from an element down: the empty path leads to the element itself. -/
abbrev Path := List Nat

/-- A name without what stands before its last colon. -/
def localName (name : Text) : Text := (name.reverse.takeWhile (· ≠ ':')).reverse

/-- The name of the attribute that identifies an element. -/
def idName : Text := ['i', 'd']

/-! ## Content -/

namespace Content

/-- One content after the other. -/
def append : Content → Content → Content
  | nil, d => d
  | raw source next, d => raw source (next.append d)
  | element tag inside next, d => element tag inside (next.append d)

/-- The element at a place, if an element is there. -/
def element? : Content → Nat → Option Element
  | nil, _ => none
  | raw _ _, 0 => none
  | raw _ next, n + 1 => next.element? n
  | element tag inside _, 0 => some ⟨tag, inside⟩
  | element _ _ next, n + 1 => next.element? n

/-- The content with `f` applied to the element at a place, if an element is there. -/
def modify (f : Element → Element) : Content → Nat → Content
  | nil, _ => nil
  | raw source next, 0 => raw source next
  | raw source next, n + 1 => raw source (next.modify f n)
  | element tag inside next, 0 => element (f ⟨tag, inside⟩).tag (f ⟨tag, inside⟩).content next
  | element tag inside next, n + 1 => element tag inside (next.modify f n)

/-- All elements of a content whose first place is `place`, parents first, with their paths. -/
def elementsFrom (place : Nat) : Content → List (Path × Element)
  | nil => []
  | raw _ next => next.elementsFrom (place + 1)
  | element tag inside next =>
    ([place], ⟨tag, inside⟩) :: (inside.elementsFrom 0).map (fun (path, e) => (place :: path, e))
      ++ next.elementsFrom (place + 1)

/-- The raw pieces in order, with `none` for each element. -/
def outline : Content → List (Option Text)
  | nil => []
  | raw source next => some source :: next.outline
  | element _ _ next => none :: next.outline

/-- The content, with the spelling of values forgotten. -/
def unspelled : Content → Content
  | nil => nil
  | raw source next => raw source next.unspelled
  | element tag inside next =>
    element { tag with attributes := tag.attributes.unspelled } inside.unspelled next.unspelled

end Content

/-! ## Elements -/

namespace Element

/-- An element without attributes and content. -/
def new (name : Text) : Element := ⟨⟨name, [], true⟩, .nil⟩

def name (e : Element) : Text := e.tag.name

def attribute? (e : Element) (name : Text) : Option Text := e.tag.attributes.value? name

/-- The value of the identifying attribute; an empty one does not count. -/
def id? (e : Element) : Option Text := (e.attribute? idName).filter (· ≠ [])

def setAttribute (e : Element) (name value : Text) : Element :=
  { e with tag.attributes := e.tag.attributes.set name value }

/-- The element with more content at the end; it is no longer written as an empty tag. -/
def push (e : Element) (more : Content) : Element :=
  ⟨{ e.tag with selfClosing := false }, e.content.append more⟩

/-- The element that a path leads to. -/
def elementAt? : Element → Path → Option Element
  | e, [] => some e
  | e, place :: path =>
    match e.content.element? place with
    | some inner => inner.elementAt? path
    | none => none

/-- The element with `f` applied to the element that a path leads to. -/
def modifyAt (f : Element → Element) : Path → Element → Element
  | [], e => f e
  | place :: path, e => { e with content := e.content.modify (modifyAt f path) place }

/-- The elements below this one, parents first, with their paths. -/
def descendants (e : Element) : List (Path × Element) := e.content.elementsFrom 0

/-- This element and those below it, parents first, with their paths. -/
def elements (e : Element) : List (Path × Element) := ([], e) :: e.descendants

/-- The path of the first element that has the given identifier. -/
def findId? (e : Element) (id : Text) : Option Path :=
  (e.elements.find? fun (_, inner) => inner.attribute? idName = some id).map (·.1)

/-- The element, with the spelling of values forgotten. -/
def unspelled (e : Element) : Element :=
  ⟨{ e.tag with attributes := e.tag.attributes.unspelled }, e.content.unspelled⟩

end Element
end SvgEdit
