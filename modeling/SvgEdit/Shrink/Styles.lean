import SvgEdit.Shrink.Removal

/-!
# Style declarations as attributes

Declarations of a tag's `style` attribute become attributes of their own where the property is one
that may be given so and the tag has no attribute of that name. They take the place of the style
attribute; the other declarations stay in one style attribute after them.
-/
namespace SvgEdit
namespace Shrink

/-- The properties that may be given as attributes. -/
def presentationProperties : List Text :=
  ["fill", "stroke", "stroke-width", "opacity", "font-size", "font-family", "font-weight",
    "text-anchor"].map String.toList

def styleStart : Text := "style=".toList

/-! ## Tags with a style -/

def isQuote (c : Char) : Bool := c = '"' || c = '\''

/--
The value of a style attribute at the beginning of a text, what follows it up to the next `>`, and
the text after that. Blanks come first; the value goes from one quote of any kind to the next.
-/
def styleAt? (s : Text) : Option (Text × Text × Text) :=
  match (afterBlanks? s).bind (Text.dropPrefix? styleStart) with
  | some (open_ :: rest) =>
    if isQuote open_ then
      match rest.dropWhile (!isQuote ·) with
      | [] => none
      | _ :: rest' =>
        (Text.cut? ['>'] rest').map fun (after, rest'') =>
          (rest.takeWhile (!isQuote ·), after, rest'')
    else none
  | _ => none

/-- What stands before the first style attribute of a tag, and what `styleAt?` finds there. -/
def findStyle? : Text → Option (Text × Text × Text × Text)
  | [] => none
  | c :: s =>
    match styleAt? (c :: s) with
    | some found => some ([], found)
    | none =>
      if c = '>' then none
      else (findStyle? s).map fun (before, found) => (c :: before, found)

/-! ## Declarations -/

/-- A property and its value. -/
structure Declaration where
  property : Text
  value : Text
deriving DecidableEq, Repr

/-- The declarations of a style; parts without a colon are none. -/
def declarations (style : Text) : List Declaration :=
  (Text.splitOn ';' style).filterMap fun part =>
    (Text.cut? [':'] part).map fun (property, value) =>
      ⟨Text.trim property, Text.trim value⟩

/-- The names that stand before an `=`, blanks between them allowed. -/
def namesBeforeEquals (s : Text) : List Text :=
  match _start : s.dropWhile (!isNamePart ·) with
  | [] => []
  | c :: rest =>
    match _equals : (rest.dropWhile isNamePart).dropWhile Text.isBlank with
    | '=' :: rest' => (c :: rest.takeWhile isNamePart) :: namesBeforeEquals rest'
    | _ => namesBeforeEquals (rest.dropWhile isNamePart)
termination_by s.length
decreasing_by
  all_goals
    have shorter := (List.dropWhile_sublist (!isNamePart ·) (l := s)).length_le
    have named := (List.dropWhile_sublist isNamePart (l := rest)).length_le
    have blanks := (List.dropWhile_sublist Text.isBlank (l := rest.dropWhile isNamePart)).length_le
    rw [_start, List.length_cons] at shorter
    simp only [_equals, List.length_cons] at blanks
    omega

/-- Whether a declaration may become an attribute of a tag with the given names. -/
def isLiftable (existing : List Text) (d : Declaration) : Bool :=
  presentationProperties.contains d.property && !existing.contains d.property

/-- A declaration as an attribute. -/
def Declaration.attribute (d : Declaration) : Text := d.property ++ '=' :: '"' :: (d.value ++ ['"'])

def Declaration.text (d : Declaration) : Text := d.property ++ ':' :: d.value

/-- Whether a style holds a value that has to be worked out. -/
def isComputed (style : Text) : Bool :=
  (Text.cut? "var(".toList style).isSome || (Text.cut? "calc(".toList style).isSome

/-- A tag from its name on, with its style taken apart, if anything of it can be lifted. -/
def liftStyle? (name before style after : Text) : Option Text :=
  if isComputed style then none
  else
    let existing := namesBeforeEquals before ++ namesBeforeEquals after
    let lifted := (declarations style).filter (isLiftable existing)
    let kept := (declarations style).filter (!isLiftable existing ·)
    if lifted = [] then none
    else
      let attributes := Text.joinWith [' '] (lifted.map Declaration.attribute)
      let style :=
        if kept = [] then []
        else
          let value := Text.joinWith [';', ' '] (kept.map Declaration.text)
          ' ' :: (styleStart ++ '"' :: (value ++ ['"']))
      some (name ++ before ++ ' ' :: attributes ++ style ++ after ++ ['>'])

/-- A tag with a style: what is written for it, and what follows it. -/
def styledTag? (s : Text) : Option (Text × Text) :=
  match s with
  | '<' :: s =>
    let name := s.takeWhile isNamePart
    if name = [] then none
    else
      (findStyle? (s.dropWhile isNamePart)).map fun (before, style, after, rest) =>
        match liftStyle? name before style after with
        | some tag => ('<' :: tag, rest)
        | none => ('<' :: s.take (s.length - rest.length), rest)
  | _ => none

/-- The text with styles taken apart into attributes. -/
def liftStyles (s : Text) : Text := Text.substitute styledTag? s

end Shrink
end SvgEdit
