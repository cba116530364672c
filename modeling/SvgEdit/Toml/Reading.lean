import SvgEdit.Toml.Outline
import SvgEdit.Toml.Strings
import SvgEdit.Toml.Word

/-!
# Reading configuration files

A file is a sequence of lines: headers, in single or double brackets, and pairs of a key and a
value, which belong to the header before them. Values may go over several lines inside brackets;
brackets and braces are nested up to `maxDepth`, and no more keys are joined by dots.
-/
namespace SvgEdit
namespace Toml

/-- How deep brackets may be nested, and how many keys may be joined. -/
def maxDepth : Nat := 79

/-! ## Between the words -/

def dropBlanks (s : Text) : Text := s.dropWhile fun c => c = ' ' || c = '\t'

/-- Passes over blanks, line ends and comments; a comment goes up to the end of its line. -/
def skipLines (inComment : Bool) : Text → Option Text
  | [] => some []
  | c :: s =>
    if inComment then
      if c = '\n' then skipLines false s
      else if isPlain c then skipLines true s
      else none
    else if isMultilineBlank c then skipLines false s
    else if c = '#' then skipLines true s
    else some (c :: s)

/-- Passes over the end of a line, with a comment before it. -/
def endLine? (s : Text) : Option Text :=
  match dropBlanks s with
  | [] => some []
  | '\n' :: s => some s
  | '#' :: s =>
    match s.dropWhile isPlain with
    | [] => some []
    | '\n' :: s => some s
    | _ => none
  | _ => none

/-! ## Keys -/

def isKeyCharacter (c : Char) : Bool := c.isAlphanum || c = '-' || c = '_'

/-- A key, bare or as a string in one line. -/
def cutSimpleKey (s : Text) : Option (Text × Text) :=
  match s with
  | '"' :: s => cutQuoted s
  | '\'' :: s => cutLiteral s
  | s =>
    let name := s.takeWhile isKeyCharacter
    if name = [] then none else some (name, s.dropWhile isKeyCharacter)

/-- At most `limit` keys with dots between them; blanks may stand around each. -/
def cutKey : (limit : Nat) → Text → Option (Key × Text)
  | 0, _ => none
  | limit + 1, s => do
    let (name, s) ← cutSimpleKey (dropBlanks s)
    match dropBlanks s with
    | '.' :: s =>
      let (key, s) ← cutKey limit s
      some ({ key with parents := name :: key.parents }, s)
    | s => some (⟨[], name⟩, s)

/-! ## Values -/

/--
Items up to a closing bracket, with commas between them and `gap` passed over around them. The
bracket may stand in place of the first item, and after a comma if `trailing` is set.
-/
def cutItems {α : Type} (item : Text → Option (α × Text)) (gap : Text → Option Text) (close : Char)
    (trailing : Bool) (mayClose : Bool) (s : Text) : Option (List α × Text) :=
  match gap s with
  | none => none
  | some here =>
    if mayClose ∧ here.head? = some close then some ([], here.tail)
    else
      match item here with
      | none => none
      | some (x, rest) =>
        match gap rest with
        | some (c :: rest) =>
          if c = close then some ([x], rest)
          else if c = ',' then
            if rest.length < s.length then
              (cutItems item gap close trailing trailing rest).map fun (xs, rest) => (x :: xs, rest)
            else none
          else none
        | _ => none
termination_by s.length

/-- A key and its value; blanks may stand around each. -/
def cutPairWith (value : Text → Option (Toml × Text)) (s : Text) :
    Option ((Key × Toml) × Text) := do
  let (key, s) ← cutKey maxDepth s
  let s ← Text.dropPrefix? ['='] s
  let (v, s) ← value (dropBlanks s)
  some ((key, v), s)

/-- A table between braces. -/
def inLineTable? (pairs : List (Key × Toml)) : Option Toml :=
  (Outline.addAll [] pairs).map fun entries => .table true (entriesDone true entries)

/-- A value with at most `depth` brackets around what is inside. -/
def cutValue : (depth : Nat) → Text → Option (Toml × Text)
  | depth, s =>
    match cutString? s with
    | some found => found.map fun (s, rest) => (.string s, rest)
    | none =>
      match depth, s with
      | depth + 1, '[' :: s =>
        (cutItems (cutValue depth) (skipLines false) ']' true true s).map
          fun (items, rest) => (.array items, rest)
      | depth + 1, '{' :: s => do
        let (pairs, rest) ←
          cutItems (cutPairWith (cutValue depth)) (some ∘ dropBlanks) '}' false true s
        let v ← inLineTable? pairs
        some (v, rest)
      | _, s =>
        let (word, rest) := cutWord s
        (ofWord? word).map (·, rest)

/-! ## Lines -/

inductive Line
  | header (key : Key)
  /-- A header in double brackets. -/
  | tables (key : Key)
  | pair (key : Key) (v : Toml)

/-- A line that is not empty, and what follows its end. -/
def cutLine (s : Text) : Option (Line × Text) :=
  match s with
  | '[' :: '[' :: s => do
    let (key, s) ← cutKey maxDepth s
    let s ← Text.dropPrefix? [']', ']'] s
    (endLine? s).map (.tables key, ·)
  | '[' :: s => do
    let (key, s) ← cutKey maxDepth s
    let s ← Text.dropPrefix? [']'] s
    (endLine? s).map (.header key, ·)
  | s => do
    let ((key, v), s) ← cutPairWith (cutValue maxDepth) s
    (endLine? s).map (.pair key v, ·)

/-- The lines of a text. -/
def cutFile (s : Text) : Option (List Line) :=
  match skipLines false s with
  | none => none
  | some [] => some []
  | some (c :: here) =>
    match cutLine (c :: here) with
    | none => none
    | some (line, rest) =>
      if rest.length < s.length then (cutFile rest).map (line :: ·) else none
termination_by s.length

/-- The pairs at the beginning, and the lines from the next header on. -/
def takePairs : List Line → List (Key × Toml) × List Line
  | .pair key v :: lines =>
    let (pairs, rest) := takePairs lines
    ((key, v) :: pairs, rest)
  | lines => ([], lines)

theorem length_takePairs (lines : List Line) : (takePairs lines).2.length ≤ lines.length := by
  fun_induction takePairs lines <;> simp_all; omega

/-- The outline with the tables that lines write. -/
def build (outline : Outline) : List Line → Option Outline
  | [] => some outline
  | .header key :: lines => do
    let outline ← outline.state key (takePairs lines).1
    build outline (takePairs lines).2
  | .tables key :: lines => do
    let outline ← outline.append key (takePairs lines).1
    build outline (takePairs lines).2
  | .pair key v :: lines => do
    let outline ← outline.add key v
    build outline lines
termination_by lines => lines.length
decreasing_by all_goals simp only [List.length_cons]; have := length_takePairs lines; omega

/-! ## Files -/

/-- The text with each line end as a single character. -/
def unifyLines : Text → Text
  | '\r' :: '\n' :: s => '\n' :: unifyLines s
  | c :: s => c :: unifyLines s
  | [] => []

/-- The text without a byte order mark. -/
def dropMark (s : Text) : Text := (Text.dropPrefix? ['\ufeff'] s).getD s

/-- The entries of a configuration file. -/
def read? (s : Text) : Option (List (Text × Toml)) := do
  let lines ← cutFile (unifyLines (dropMark s))
  let outline ← build [] lines
  some (entriesDone false outline)

end Toml
end SvgEdit
