import SvgEdit.Text.Basic

/-!
# Paths of files

A path is text with slashes between its parts. Parts that are empty or a single dot lead nowhere;
they are kept as they are written, but a path has the same name with and without them at its end.
-/
namespace SvgEdit

/-- A path of the file system, as it is written. -/
abbrev FilePath := Text

namespace FilePath

/-- The part that stands for the directory above. -/
def above : Text := ['.', '.']

/-- Whether a part leads to where one already is. -/
def isIdle (part : Text) : Bool := part = [] || part = ['.']

/-- The parts of a path, idle ones included. -/
def parts (p : FilePath) : List Text := Text.splitOn '/' p

def isAbsolute (p : FilePath) : Bool := p.head? = some '/'

/-- The name that a path ends in, if it does not end in a step up. -/
def fileName? (p : FilePath) : Option Text :=
  match (p.parts.filter (!isIdle ·)).getLast? with
  | some name => if name = above then none else some name
  | none => none

/-- A path taken from a directory; an absolute path stands for itself. -/
def join (directory name : FilePath) : FilePath :=
  if name.isAbsolute ∨ directory = [] then name
  else if directory.getLast? = some '/' then directory ++ name
  else directory ++ '/' :: name

/-- The parts without the idle ones at the end. -/
def dropIdleEnd (parts : List Text) : List Text := (parts.reverse.dropWhile isIdle).reverse

/-- The path without its last part. Neither the root nor the empty path has one. -/
def parent? (p : FilePath) : Option FilePath :=
  match p.parts with
  | [] => none
  | first :: rest =>
    match dropIdleEnd rest with
    | [] => if first = [] then none else some []
    | rest =>
      let kept := dropIdleEnd rest.dropLast
      if first = [] ∧ kept = [] then some ['/'] else some (Text.joinWith ['/'] (first :: kept))

/-- A path and those above it, up to one that has none above. -/
def ancestors (p : FilePath) : List FilePath :=
  match p.parent? with
  | some above => if above.length < p.length then p :: ancestors above else [p]
  | none => [p]
termination_by p.length

end FilePath
end SvgEdit
