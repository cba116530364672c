import SvgEdit.Text.Basic

/-!
# Queries

A query is a tag name, an identifier, classes and attributes, each of which may be left out. It is
written in one order: tag, `#id`, `.class` for each class, `[name]` or `[name="value"]` for each
attribute; a query without constraints is written `*`.
-/
namespace SvgEdit

/-- A query; what is left out matches everything. -/
structure Query where
  tag : Option Text := none
  id : Option Text := none
  /-- All of them have to be there. -/
  classes : List Text := []
  /-- Attributes by name, each with the value asked for, if one is. -/
  attributes : List (Text × Option Text) := []
deriving DecidableEq, Repr

namespace Query

/-- No constraint at all. -/
def isWildcard (q : Query) : Bool :=
  q.tag.isNone && q.id.isNone && q.classes.isEmpty && q.attributes.isEmpty

/-- An attribute constraint as it is written. -/
def attributeText : Text × Option Text → Text
  | (name, none) => '[' :: (name ++ [']'])
  | (name, some value) => '[' :: (name ++ '=' :: '"' :: (value ++ ['"', ']']))

/-- The query as it is written. -/
def text (q : Query) : Text :=
  if q.isWildcard then ['*']
  else
    q.tag.getD [] ++ (q.id.elim [] ('#' :: ·)) ++ q.classes.flatMap ('.' :: ·)
      ++ q.attributes.flatMap attributeText

end Query
end SvgEdit
