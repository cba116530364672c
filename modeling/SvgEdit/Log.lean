import SvgEdit.Text.Basic

/-!
# Log lines

A log line belongs to a part of the program and is shown after its name in brackets, in the colour
of that part where colours are wanted. Lines for readers of details are made by functions of their
own beside those that do the work.
-/
namespace SvgEdit

/-- A line of the log. -/
structure LogLine where
  area : String
  message : String
deriving DecidableEq, Repr

namespace LogLine

/-- The colour of a part of the program. -/
def colour (area : String) : Nat :=
  match area with
  | "select" => 94
  | "transform" => 92
  | "optimize" => 96
  | "error" => 91
  | _ => 93

/-- The line as it is shown. -/
def text (coloured : Bool) (line : LogLine) : String :=
  if coloured then
    s!"\x1b[1m\x1b[{colour line.area}m[{line.area}]\x1b[39m\x1b[0m {line.message}"
  else s!"[{line.area}] {line.message}"

end LogLine
end SvgEdit
