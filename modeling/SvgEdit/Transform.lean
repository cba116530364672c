import SvgEdit.Request.Reading
import SvgEdit.Selection

/-!
# Transforming documents

A request is applied to the element with a given identifier, or to every element that a query
matches, each found by its identifier after the selection. An outcome tells what happened; when
nothing could be done, the document in it is the text that was given.
-/
namespace SvgEdit

/-! ## By identifier -/

/-- The document with a request applied to the first element that has an identifier. -/
def Document.applyRequest? (d : Document) (id : Text) (r : Request) : Option Document :=
  (d.root.findId? id).map fun path => d.modifyAt path r.apply

/-- The text with a request applied; a text where nothing can be done stays as it is. -/
def applyToText (s : Text) (id : Text) (r : Request) : Text :=
  match Document.parse s with
  | .ok d => (d.applyRequest? id r).elim s Document.source
  | .error _ => s

/-! ## By query -/

/--
What came of a request for all matches of a query. Whether it succeeded and how many elements matched are no
fields: they are read off the failure (`success`) and the elements (`matched`).
-/
structure Outcome where
  /-- Why nothing was done, if so. -/
  failure : Option String
  given : Text
  modified : Text
  /-- The matches as they were before the request, with the identifiers they were given. -/
  elements : List Match
deriving DecidableEq, Repr

namespace Outcome

def success (o : Outcome) : Bool := o.failure.isNone

def matched (o : Outcome) : Nat := o.elements.length

/-- Nothing was done. -/
def failed (s : Text) (reason : String) : Outcome := ⟨some reason, s, s, []⟩

end Outcome

/-- The document with a request applied once for each match, found by its identifier. -/
def Document.applyToMatches (d : Document) (r : Request) (found : List Match) : Document :=
  found.foldl (fun d m => (d.applyRequest? m.id r).getD d) d

/-- Selects in a text and applies a request to every match. -/
def transformMatching (s : Text) (selector : Text) (r : Request) : Outcome :=
  match Document.parse s with
  | .error fault => .failed s ("Failed to parse document: " ++ fault.message)
  | .ok d =>
    let (d', found) := d.select (Query.parse selector)
    if found.isEmpty then
      .failed s ("No elements found matching selector: '" ++ selector.string ++ "'")
    else ⟨none, s, (d'.applyToMatches r found).source, found⟩

/-! ## JSON -/

/-- The attributes as an object. -/
def Attributes.json (as : Attributes) : Json := .object (as.map fun a => (a.name, .string a.value))

def Match.json (m : Match) : Json :=
  .object [("id".toList, .string m.id), ("tag".toList, .string m.tag),
    ("attributes".toList, m.attributes.json)]

/-- The members of an outcome's object. -/
def Outcome.members (o : Outcome) : List (Text × Json) :=
  [("success".toList, .bool o.success)]
    ++ o.failure.elim [] (fun reason => [("error".toList, .string reason.toList)])
    ++ [("originalDocument".toList, .string o.given),
      ("modifiedDocument".toList, .string o.modified),
      ("matchedElements".toList, .ofNat o.matched),
      ("elements".toList, .array (o.elements.map Match.json))]

def Outcome.json (o : Outcome) : Json := .object o.members

/-! ## Log -/

/-- What is logged while a request is applied to the element with an identifier. -/
def Document.applyRequestLog (d : Document) (id : Text) (r : Request) : List LogLine :=
  if (d.root.findId? id).isSome then r.applyLog
  else [⟨"transform", "no element with id `" ++ id.string ++ "`"⟩]

/-- What is logged while a request is applied to a text. -/
def applyToTextLog (s : Text) (id : Text) (r : Request) : List LogLine :=
  match Document.parse s with
  | .ok d => d.applyRequestLog id r
  | .error fault => [fault.logLine "transform"]

/-- What is logged about the keys of a request that have no meaning. -/
def Request.ignoredLog (area : String) (r : Request) : List LogLine :=
  r.ignoredKeys.map fun key => ⟨area, "ignoring unknown request key `" ++ key.string ++ "`"⟩

/-- What is logged while a request is applied to all matches. -/
def transformMatchingLog (s : Text) (selector : Text) (r : Request) : List LogLine :=
  match Document.parse s with
  | .error _ => []
  | .ok d =>
    let q := Query.parse selector
    let (d', found) := d.select q
    d.selectLog q ++
      if found.isEmpty then []
      else r.ignoredLog "transform" ++ found.flatMap fun m => d'.applyRequestLog m.id r

end SvgEdit
