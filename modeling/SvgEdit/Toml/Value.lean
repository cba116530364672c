import SvgEdit.Number.Binary64
import SvgEdit.Text.Basic

/-!
# Values of configuration files

A value is what TOML 1.0 can write. Tables keep their entries in order, and tell whether they were
written in line, between braces.
-/
namespace SvgEdit

inductive Toml
  | string (s : Text)
  | integer (n : Int)
  | float (x : Binary64)
  | boolean (b : Bool)
  /-- A date, a time, or a date and a time. -/
  | moment (s : Text)
  | array (items : List Toml)
  | table (inLine : Bool) (entries : List (Text × Toml))

end SvgEdit
