import SvgEdit.Query.Basic
import SvgEdit.Text.Blank

/-!
# Reading queries

Every text is a query. Fragments are taken out of it in a fixed order: the first `#id`, every
`.class`, every `[name]` or `[name=value]`; what is left, trimmed, is the tag. `#` and `.` between
brackets belong to the attribute, and what is no fragment stays where it is.
-/
namespace SvgEdit

/-- The characters of identifiers and classes. -/
def isNameChar (c : Char) : Bool := c.isAlphanum || c = '-' || c = '_'

namespace Query

/-! ## Marked names -/

/--
The first name that follows `mark` outside brackets, and the text without mark and name. `inside`
tells whether the text begins between brackets.
-/
def takeMarked (mark : Char) (inside : Bool) : Text → Option (Text × Text)
  | [] => none
  | c :: s =>
    if c = mark ∧ inside = false ∧ s.takeWhile isNameChar ≠ [] then
      some (s.takeWhile isNameChar, s.dropWhile isNameChar)
    else
      (takeMarked mark (if c = '[' then true else if c = ']' then false else inside) s).map
        fun (name, rest) => (name, c :: rest)

theorem length_of_takeMarked {mark : Char} {inside : Bool} {s name rest : Text}
    (h : takeMarked mark inside s = some (name, rest)) : rest.length < s.length := by
  induction s generalizing inside name rest with
  | nil => simp [takeMarked] at h
  | cons c s ih =>
    rw [takeMarked] at h
    split at h
    · obtain ⟨-, rfl⟩ := Prod.mk.inj (Option.some.inj h)
      have := (List.dropWhile_sublist isNameChar (l := s)).length_le
      simp only [List.length_cons]
      omega
    · obtain ⟨⟨n, r⟩, inner, same⟩ := Option.map_eq_some_iff.mp h
      obtain ⟨-, rfl⟩ := Prod.mk.inj same
      have := ih inner
      simp only [List.length_cons]
      omega

/-- Takes out every class; a class that is already there is not listed again. -/
def takeClasses (classes : List Text) (s : Text) : List Text × Text :=
  match h : takeMarked '.' false s with
  | some (name, rest) =>
    have := length_of_takeMarked h
    takeClasses (if name ∈ classes then classes else classes ++ [name]) rest
  | none => (classes, s)
termination_by s.length

/-! ## Attributes -/

/-- A value without one pair of equal quotes around it. -/
def stripQuotes (value : Text) : Text :=
  match value with
  | c :: rest =>
    if (c = '"' ∨ c = '\'') ∧ rest.getLast? = some c then rest.dropLast else value
  | [] => value

/-- The name and value between brackets, if they make an attribute constraint. -/
def readAttribute? (inside : Text) : Option (Text × Option Text) :=
  let name := inside.takeWhile (· ≠ '=')
  if name = [] ∨ ¬ name.all (fun c => isNameChar c || c = ':') then none
  else
    match inside.dropWhile (· ≠ '=') with
    | [] => some (name, none)
    | _ :: value => if value = [] then none else some (name, some (stripQuotes value))

/-- The first attribute constraint, and the text without it. -/
def takeAttribute : Text → Option ((Text × Option Text) × Text)
  | [] => none
  | c :: s =>
    let later := (takeAttribute s).map fun (found, rest) => (found, c :: rest)
    if c = '[' then
      match Text.cut? [']'] s with
      | some (inside, rest) =>
        match readAttribute? inside with
        | some found => some (found, rest)
        | none => later
      | none => later
    else later

theorem length_of_takeAttribute {s rest : Text} {found : Text × Option Text}
    (h : takeAttribute s = some (found, rest)) : rest.length < s.length := by
  induction s generalizing rest with
  | nil => simp [takeAttribute] at h
  | cons c s ih =>
    have later : ∀ {r : Text},
        (takeAttribute s).map (fun (found, rest) => (found, c :: rest)) = some (found, r) →
          r.length < (c :: s).length := by
      intro r h
      obtain ⟨⟨f, r'⟩, inner, same⟩ := Option.map_eq_some_iff.mp h
      obtain ⟨rfl, rfl⟩ := Prod.mk.inj same
      simpa using ih inner
    rw [takeAttribute] at h
    split at h
    · split at h
      · next cut =>
        split at h
        · obtain ⟨-, rfl⟩ := Prod.mk.inj (Option.some.inj h)
          rw [Text.eq_append_of_cut? cut]
          simp only [List.length_cons, List.length_append]
          omega
        · exact later h
      · exact later h
    · exact later h

/-- Notes an attribute constraint; one with a known name replaces the value in its place. -/
def putAttribute (name : Text) (value : Option Text) :
    List (Text × Option Text) → List (Text × Option Text)
  | [] => [(name, value)]
  | (n, v) :: rest =>
    if n = name then (n, value) :: rest else (n, v) :: putAttribute name value rest

/-- Takes out every attribute constraint. -/
def takeAttributes (attributes : List (Text × Option Text)) (s : Text) :
    List (Text × Option Text) × Text :=
  match h : takeAttribute s with
  | some ((name, value), rest) =>
    have := length_of_takeAttribute h
    takeAttributes (putAttribute name value attributes) rest
  | none => (attributes, s)
termination_by s.length

/-! ## The whole query -/

/-- The query that a text is. -/
def parse (s : Text) : Query :=
  let (id, s) :=
    match takeMarked '#' false s with
    | some (name, rest) => (some name, rest)
    | none => (none, s)
  let (classes, s) := takeClasses [] s
  let (attributes, s) := takeAttributes [] s
  let tag := Text.trim s
  { tag := if tag = [] then none else some tag, id, classes, attributes }

end Query
end SvgEdit
