import SvgEdit.Shrink.Report
import SvgEdit.Toml.Reading

/-!
# Settings

Settings come from a configuration file with the sections `log`, `optimize` and `output`; what is
not there keeps its default, and keys without meaning are passed over. A section may also be an
array of its fields, in order.
-/
namespace SvgEdit

structure Settings where
  /-- Whether details are logged. -/
  verbose : Bool := false
  shrinking : Shrink.Options := {}
  /-- Whether JSON is written with one item a line. -/
  pretty : Bool := false
deriving DecidableEq, Repr

namespace Settings

/-! ## Sections -/

/-- A section: its name, and the names of its fields in order. -/
structure Section where
  name : Text
  fields : List Text
deriving DecidableEq, Repr

def logSection : Section := ⟨"log".toList, ["verbose".toList]⟩

def shrinkSection : Section := ⟨"optimize".toList, ["level".toList, "precision".toList]⟩

def outputSection : Section := ⟨"output".toList, ["pretty".toList]⟩

def sections : List Section := [logSection, shrinkSection, outputSection]

/-- Items as fields in order; items may be missing, and more of them are passed over. -/
def inOrder : (fields : List Text) → List Toml → List (Text × Toml)
  | field :: fields, item :: items => (field, item) :: inOrder fields items
  | _, _ => []

/-- The fields of a section that is written as `v`. A moment is a section without fields. -/
def Section.entries? (sec : Section) : (v : Toml) → Option (List (Text × Toml))
  | .table _ entries => some entries
  | .array items => some (inOrder sec.fields items)
  | .moment _ => some []
  | _ => none

/-- The fields of a section in a file. -/
def Section.find? (sec : Section) (file : List (Text × Toml)) : Option (List (Text × Toml)) :=
  match file.lookup sec.name with
  | some v => sec.entries? v
  | none => some []

/-- The value of a field, or its default if it is not there. -/
def field? {α : Type} (read : Toml → Option α) (default : α) (name : String)
    (entries : List (Text × Toml)) : Option α :=
  match entries.lookup name.toList with
  | some v => read v
  | none => some default

/-! ## Fields -/

def boolean? : Toml → Option Bool
  | .boolean b => some b
  | _ => none

/-- A count of places has eight bits. -/
def precision? : Toml → Option (Option Nat)
  | .integer n => if 0 ≤ n ∧ n < 256 then some (some n.toNat) else none
  | _ => none

/-- Whether nothing is in a table or an array. -/
def isEmpty : Toml → Bool
  | .table _ entries => entries.isEmpty
  | .array items => items.isEmpty
  | _ => false

/-- A level by its name, or by a table with its name and something empty. -/
def level? : Toml → Option Shrink.Level
  | .string name => Shrink.Level.ofName? (String.ofList name)
  | .table _ [(name, v)] => if isEmpty v then Shrink.Level.ofName? (String.ofList name) else none
  | .table false ((name, v) :: _) =>
    if isEmpty v then Shrink.Level.ofName? (String.ofList name) else none
  | _ => none

/-! ## Files -/

/-- The settings in the entries of a file. -/
def ofEntries? (file : List (Text × Toml)) : Option Settings := do
  let log ← logSection.find? file
  let shrink ← shrinkSection.find? file
  let output ← outputSection.find? file
  let verbose ← field? boolean? false "verbose" log
  let level ← field? level? .standard "level" shrink
  let precision ← field? precision? none "precision" shrink
  let pretty ← field? boolean? false "pretty" output
  some ⟨verbose, ⟨level, precision⟩, pretty⟩

/-- The settings in a configuration file. -/
def read? (s : Text) : Option Settings := (Toml.read? s).bind ofEntries?

/-- A key inside a section. -/
def inside (sec key : Text) : Text := sec ++ '.' :: key

/-- The keys without meaning in a section, as they are told. A moment counts as one such key. -/
def Section.unknownKeys (sec : Section) : (v : Toml) → List Text
  | .table _ entries => (entries.map (·.1)).filter (!sec.fields.contains ·) |>.map (inside sec.name)
  | .moment _ => [inside sec.name "$__toml_private_datetime".toList]
  | _ => []

/-- The keys without meaning in a file, in order. -/
def unknownKeys (file : List (Text × Toml)) : List Text :=
  file.flatMap fun (key, v) =>
    match sections.find? (·.name = key) with
    | some sec => sec.unknownKeys v
    | none => [key]

/-! ## JSON -/

def json (s : Settings) : Json :=
  .object [("log".toList, .object [("verbose".toList, .bool s.verbose)]),
    ("optimize".toList, .object
      (("level".toList, .string s.shrinking.level.name.toList) ::
        s.shrinking.precision.elim [] fun n => [("precision".toList, .ofNat n)])),
    ("output".toList, .object [("pretty".toList, .bool s.pretty)])]

end Settings
end SvgEdit
