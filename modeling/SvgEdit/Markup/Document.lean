import SvgEdit.Markup.Content

/-!
# Documents and their source

A document is a root element with raw pieces before and after it. Its source is written out as it
was read: raw pieces as they are, values in their own spelling, and values that were changed escaped
between double quotes.
-/
namespace SvgEdit

structure Document where
  prolog : List Text
  root : Element
  epilog : List Text
deriving DecidableEq, Repr

/-! ## Source -/

/-- An attribute with the blank before it. -/
def Attribute.source (a : Attribute) : Text :=
  match a.spelling with
  | some ⟨raw, quote⟩ => ' ' :: (a.name ++ '=' :: quote.char :: (raw ++ [quote.char]))
  | none => ' ' :: (a.name ++ '=' :: '"' :: (escape a.value ++ ['"']))

def Attributes.source (as : Attributes) : Text := as.flatMap Attribute.source

/-- An element's source, that of its content being given. -/
def Tag.enclose (tag : Tag) (empty : Bool) (inside : Text) : Text :=
  '<' :: (tag.name ++ tag.attributes.source ++
    if tag.selfClosing ∧ empty then ['/', '>']
    else '>' :: (inside ++ '<' :: '/' :: (tag.name ++ ['>'])))

def Content.source : Content → Text
  | nil => []
  | raw source next => source ++ next.source
  | element tag inside next => tag.enclose (inside = .nil) inside.source ++ next.source

def Element.source (e : Element) : Text := e.tag.enclose (e.content = .nil) e.content.source

def Document.source (d : Document) : Text := d.prolog.flatten ++ d.root.source ++ d.epilog.flatten

/-! ## Access -/

namespace Document

/-- All elements, the root first, with their paths. -/
def elements (d : Document) : List (Path × Element) := d.root.elements

/-- The document with `f` applied to the element that a path leads to. -/
def modifyAt (d : Document) (path : Path) (f : Element → Element) : Document :=
  { d with root := d.root.modifyAt f path }

/-- The document, with the spelling of values forgotten. Documents are equal when these are. -/
def unspelled (d : Document) : Document := { d with root := d.root.unspelled }

end Document
end SvgEdit
