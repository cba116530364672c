import SvgEdit.Log
import SvgEdit.Markup.Assembly
import SvgEdit.Query.Reading

/-!
# Selecting elements

Selecting has two steps: `matchingPaths` lists the elements below the root that satisfy a query, and
`assignIds` gives those without an identifier a new one, made from their place in the selection, and
tells what was matched. Identifiers are what later steps find elements by.
-/
namespace SvgEdit

/-! ## Matching -/

/-- The name of the attribute that lists classes. -/
def className : Text := ['c', 'l', 'a', 's', 's']

/-- Whether an element satisfies an attribute constraint. -/
def Query.matchesAttribute (e : Element) : Text × Option Text → Bool
  | (name, some value) => e.attribute? name = some value
  | (name, none) => e.tag.attributes.has name

/-- Whether an element satisfies every constraint of a query. -/
def Query.isMatch (q : Query) (e : Element) : Bool :=
  q.tag.all (localName e.name = ·)
    && q.id.all (e.attribute? idName = some ·)
    && (let classes := Text.words ((e.attribute? className).getD [])
        q.classes.all (classes.contains ·))
    && q.attributes.all (Query.matchesAttribute e)

/-- The paths of the elements below the root that satisfy a query, in document order. -/
def matchingPaths (d : Document) (q : Query) : List Path :=
  (d.root.descendants.filter fun (_, e) => q.isMatch e).map (·.1)

/-! ## Identifiers -/

/-- What was matched: the identifier, the local name and the attributes of an element. -/
structure Match where
  id : Text
  tag : Text
  attributes : Attributes
deriving DecidableEq, Repr

/-- The identifier made for the match at a place of a selection. -/
def madeId (place : Nat) : Text :=
  ['_', 's', 'e', 'l', 'e', 'c', 't', 'e', 'd', '_'] ++ Text.ofNat place

/-- The element with an identifier: its own, or the one made for its place. -/
def Element.withId (e : Element) (place : Nat) : Element :=
  if e.id?.isSome then e else e.setAttribute idName (madeId place)

/-- What is told of a matched element. -/
def Match.ofElement (e : Element) (place : Nat) : Match :=
  ⟨e.id?.getD (madeId place), localName e.name, (e.withId place).tag.attributes⟩

/--
Gives the elements at paths identifiers, the first of them being at `place` in the selection. Paths
that lead to no element keep their place.
-/
def assignIdsFrom (place : Nat) (d : Document) : List Path → Document × List Match
  | [] => (d, [])
  | path :: paths =>
    match d.root.elementAt? path with
    | none => assignIdsFrom (place + 1) d paths
    | some e =>
      let (d', found) := assignIdsFrom (place + 1) (d.modifyAt path (·.withId place)) paths
      (d', Match.ofElement e place :: found)

/-- Gives the elements at paths identifiers, and tells what was matched. -/
def assignIds (d : Document) (paths : List Path) : Document × List Match := assignIdsFrom 0 d paths

/-- Selects in a document. -/
def Document.select (d : Document) (q : Query) : Document × List Match :=
  assignIds d (matchingPaths d q)

/-- Selects in a text. A text that is no document stays as it is and has no matches. -/
def selectElements (s : Text) (selector : Text) : Text × List Match :=
  match Document.parse s with
  | .ok d =>
    let (d', found) := d.select (Query.parse selector)
    (d'.source, found)
  | .error _ => (s, [])

/-! ## Log -/

/-- What is logged while identifiers are assigned. -/
def assignLogFrom (place : Nat) (d : Document) : List Path → List LogLine
  | [] => []
  | path :: paths =>
    match d.root.elementAt? path with
    | none => assignLogFrom (place + 1) d paths
    | some e =>
      let later := assignLogFrom (place + 1) (d.modifyAt path (·.withId place)) paths
      if e.id?.isSome then later
      else
        ⟨"select", "assigning id `" ++ (madeId place).string ++ "` to <" ++ e.name.string ++ ">"⟩
          :: later

/-- What is logged while a selection is made. -/
def Document.selectLog (d : Document) (q : Query) : List LogLine :=
  let paths := matchingPaths d q
  ⟨"select", "`" ++ q.text.string ++ s!"` matched {paths.length} element(s)"⟩
    :: assignLogFrom 0 d paths

/-- What is logged about a text that is no document. -/
def DocumentFault.logLine (area : String) (fault : DocumentFault) : LogLine :=
  ⟨area, "document does not parse: " ++ fault.message⟩

/-- What is logged while selecting in a text. -/
def selectElementsLog (s : Text) (selector : Text) : List LogLine :=
  match Document.parse s with
  | .ok d => d.selectLog (Query.parse selector)
  | .error fault => [fault.logLine "select"]

end SvgEdit
