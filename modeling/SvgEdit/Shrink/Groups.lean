import SvgEdit.Shrink.Removal

/-!
# Empty groups

A group is empty if it is an empty tag or if nothing but blanks stands between its tags. Removing
empty groups can make others empty, so it is done until none is left.
-/
namespace SvgEdit
namespace Shrink

/--
What follows attributes: characters other than `>` and `/`, and whole quoted values. It stops where
a quote is not closed.
-/
def afterAttributes (quote : Option Char) : Text → Text
  | [] => []
  | c :: s =>
    match quote with
    | some q => afterAttributes (if c = q then none else some q) s
    | none =>
      if c = '>' ∨ c = '/' then c :: s
      else if c = '"' ∨ c = '\'' then
        if c ∈ s then afterAttributes (some c) s else c :: s
      else afterAttributes none s

/-- What follows the end of an empty group's start tag and all that belongs to it. -/
def afterGroupEnd? (s : Text) : Option Text :=
  match s with
  | '/' :: '>' :: rest => some rest
  | '>' :: rest => Text.dropPrefix? ['<', '/', 'g', '>'] (rest.dropWhile Text.isBlank)
  | _ => none

/-- An empty group: attributes follow a blank. -/
def afterEmptyGroup? (s : Text) : Option Text :=
  match s with
  | '<' :: 'g' :: c :: rest =>
    if Text.isBlank c then afterGroupEnd? (afterAttributes none rest)
    else afterGroupEnd? (c :: rest)
  | _ => none

/-- The text without its empty groups, whose removal may leave others empty. -/
def removeEmptyGroups (s : Text) : Text := remove afterEmptyGroup? s

/-- The text without empty groups. -/
def collapseGroups (s : Text) : Text :=
  let next := removeEmptyGroups s
  if next.length < s.length then collapseGroups next else s
termination_by s.length

end Shrink
end SvgEdit
