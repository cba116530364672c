import SvgEdit.Toml.Value

/-!
# Tables in the making

The parts of a table may be written at several places of a file, but nothing may be written twice.
So while a file is read, a table knows how it came about: by a header or braces of its own, on the
way to another table's header, or on the way to a key with dots. Reading ends with the values alone.
-/
namespace SvgEdit
namespace Toml

/-- How a table came about. -/
inductive Origin
  /-- By a header or braces of its own. -/
  | stated
  /-- On the way to another table's header. -/
  | implied
  /-- On the way to a key with dots. -/
  | dotted
deriving DecidableEq, Repr

/-- What stands at a key. -/
inductive Node
  | value (v : Toml)
  | table (origin : Origin) (entries : List (Text × Node))
  /-- Tables with the same header in double brackets; what is written next belongs to the last. -/
  | tables (earlier : List (List (Text × Node))) (last : List (Text × Node))

/-- The entries of a table in the making. -/
abbrev Outline := List (Text × Node)

/-- A key with the keys before it. -/
structure Key where
  parents : List Text
  name : Text
deriving DecidableEq, Repr

namespace Outline

/-- Puts a node in the place of the one at a key. -/
def replace (key : Text) (node : Node) (entries : Outline) : Outline :=
  entries.map fun (k, old) => if k = key then (k, node) else (k, old)

/--
Changes the table at the end of a path, which starts at a table of some origin. Tables on the way
that are not there come about with `origin`; a path of dots does not lead into a stated table.
-/
def within (origin : Origin) (change : Origin → Outline → Option Outline) :
    (path : List Text) → (here : Origin) → Outline → Option Outline
  | [], here, entries => change here entries
  | key :: path, _, entries =>
    match entries.lookup key with
    | none => do
      let inner ← within origin change path origin []
      some (entries ++ [(key, .table origin inner)])
    | some (.value _) => none
    | some (.table was inner) => do
      if origin = .dotted ∧ was = .stated then none
      let inner ← within origin change path was inner
      some (entries.replace key (.table was inner))
    | some (.tables earlier last) => do
      let last ← within origin change path .stated last
      some (entries.replace key (.tables earlier last))

/-- Adds a value at a key; the table that it goes to may not have come about in another way. -/
def add (entries : Outline) (key : Key) (v : Toml) : Option Outline :=
  within .dotted (fun origin entries =>
    if key.parents ≠ [] ∧ origin ≠ .dotted then none
    else if (entries.lookup key.name).isSome then none
    else some (entries ++ [(key.name, .value v)])) key.parents .stated entries

/-- Adds values at keys, in order. -/
def addAll (entries : Outline) (pairs : List (Key × Toml)) : Option Outline :=
  pairs.foldlM (fun entries (key, v) => entries.add key v) entries

/-- Adds a table with a header; one that was only implied is completed and moves to the end. -/
def state (entries : Outline) (key : Key) (pairs : List (Key × Toml)) : Option Outline :=
  within .implied (fun _ entries =>
    match entries.lookup key.name with
    | none => do
      let inner ← addAll [] pairs
      some (entries ++ [(key.name, .table .stated inner)])
    | some (.table .implied inner) => do
      let inner ← addAll inner pairs
      some (entries.filter (·.1 ≠ key.name) ++ [(key.name, .table .stated inner)])
    | some _ => none) key.parents .stated entries

/-- Adds one more table to those with a header in double brackets. -/
def append (entries : Outline) (key : Key) (pairs : List (Key × Toml)) : Option Outline :=
  within .implied (fun _ entries => do
    let inner ← addAll [] pairs
    match entries.lookup key.name with
    | none => some (entries ++ [(key.name, .tables [] inner)])
    | some (.tables earlier last) =>
      some (Outline.replace key.name (.tables (earlier ++ [last]) inner) entries)
    | some _ => none) key.parents .stated entries

end Outline

/-! ## The values alone -/

mutual

/-- The value that a node stands for. -/
def Node.done (inLine : Bool) : Node → Toml
  | .value v => v
  | .table _ entries => .table inLine (entriesDone inLine entries)
  | .tables earlier last =>
    .array (tablesDone inLine earlier ++ [.table inLine (entriesDone inLine last)])

def entriesDone (inLine : Bool) : List (Text × Node) → List (Text × Toml)
  | [] => []
  | (key, node) :: entries => (key, node.done inLine) :: entriesDone inLine entries

def tablesDone (inLine : Bool) : List (List (Text × Node)) → List Toml
  | [] => []
  | entries :: rest => .table inLine (entriesDone inLine entries) :: tablesDone inLine rest

end

end Toml
end SvgEdit
