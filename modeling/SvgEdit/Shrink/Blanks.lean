import SvgEdit.Shrink.Removal

/-!
# Fewer blanks

Blanks go between tags, around an `=` before a quote, after `<` and before `>`; every other run of
blanks becomes one.
-/
namespace SvgEdit
namespace Shrink

/-- Nothing but blanks between two tags. -/
def betweenTags? (s : Text) : Option (Text × Text) := do
  let s ← afterChar? '>' s
  let s ← afterBlanks? s
  let rest ← afterChar? '<' s
  pure (['>', '<'], rest)

/-- An `=` before a quote, with the blanks around it. -/
def equalsQuote? (s : Text) : Option (Text × Text) := do
  let s ← afterChar? '=' (s.dropWhile Text.isBlank)
  match s.dropWhile Text.isBlank with
  | c :: rest => if c = '"' ∨ c = '\'' then some (['=', c], rest) else none
  | [] => none

/-- Blanks after the beginning of a tag. -/
def afterOpening? (s : Text) : Option (Text × Text) := do
  let s ← afterChar? '<' s
  let rest ← afterBlanks? s
  pure (['<'], rest)

/-- Blanks before the end of a tag. -/
def beforeClosing? (s : Text) : Option (Text × Text) := do
  let s ← afterBlanks? s
  let rest ← afterChar? '>' s
  pure (['>'], rest)

/-- Two blanks or more. -/
def blankRun? (s : Text) : Option (Text × Text) :=
  match s with
  | c :: d :: rest =>
    if Text.isBlank c ∧ Text.isBlank d then some ([' '], rest.dropWhile Text.isBlank) else none
  | _ => none

/-- The text with fewer blanks. -/
def removeBlanks (s : Text) : Text :=
  [betweenTags?, equalsQuote?, afterOpening?, beforeClosing?, blankRun?].foldl
    (fun s step => Text.substitute step s) s

end Shrink
end SvgEdit
