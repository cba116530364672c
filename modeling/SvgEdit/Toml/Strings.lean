import SvgEdit.Number.Reading

/-!
# Strings of configuration files

A string stands between quotation marks, where a backslash begins an escape, or between apostrophes,
where it does not; three marks instead of one allow line ends inside. The cutters start after the
opening mark and give what the string stands for and what follows it. Line ends are single
characters here.
-/
namespace SvgEdit
namespace Toml

/-- Whether a character may stand in a line as it is. -/
def isPlain (c : Char) : Bool := c = '\t' || (32 ≤ c.toNat && c.toNat ≠ 127)

/-- A character before what was cut off. -/
def before (c : Char) : Text × Text → Text × Text
  | (s, rest) => (c :: s, rest)

/-! ## Escapes -/

/-- The number that digits of base sixteen write. -/
def hexNumber? (digits : Text) : Option Nat :=
  digits.foldlM (fun value c => (hexValue? c).map (value * 16 + ·)) 0

/-- The character whose number the first `count` characters of a text write in base sixteen. -/
def numbered? (count : Nat) (s : Text) : Option Char := do
  let digits := s.take count
  if digits.length < count then none
  let code ← hexNumber? digits
  if code.isValidChar then some (Char.ofNat code) else none

/-- The character that an escape stands for, and the characters it takes after the backslash. -/
def escape? : Text → Option (Char × Nat)
  | [] => none
  | c :: s =>
    if c = 'u' then (numbered? 4 s).map (·, 5)
    else if c = 'U' then (numbered? 8 s).map (·, 9)
    else if c = '"' ∨ c = '\\' then some (c, 1)
    else if c = 'b' then some ('\x08', 1)
    else if c = 'f' then some ('\x0c', 1)
    else if c = 'n' then some ('\n', 1)
    else if c = 'r' then some ('\r', 1)
    else if c = 't' then some ('\t', 1)
    else none

/-! ## In one line -/

/-- A string between quotation marks. -/
def cutQuoted : Text → Option (Text × Text)
  | [] => none
  | c :: s =>
    if c = '"' then some ([], s)
    else if c = '\\' then
      match escape? s with
      | some (d, taken) => (cutQuoted (s.drop taken)).map (before d)
      | none => none
    else if isPlain c then (cutQuoted s).map (before c)
    else none
termination_by s => s.length
decreasing_by all_goals simp only [List.length_drop, List.length_cons]; omega

/-- A string between apostrophes. -/
def cutLiteral : Text → Option (Text × Text)
  | [] => none
  | c :: s =>
    if c = '\'' then some ([], s)
    else if isPlain c then (cutLiteral s).map (before c)
    else none

/-! ## Over several lines -/

def isMultilineBlank (c : Char) : Bool := c = ' ' || c = '\t' || c = '\n'

/-- What follows a backslash at the end of a line: blanks and line ends are passed over. -/
def continued? (s : Text) : Option Text :=
  match s.dropWhile (fun c => c = ' ' || c = '\t') with
  | '\n' :: _ => some (s.dropWhile isMultilineBlank)
  | _ => none

theorem length_continued? {s rest : Text} (h : continued? s = some rest) :
    rest.length ≤ s.length := by
  unfold continued? at h
  split at h
  · exact Option.some.inj h ▸ (List.dropWhile_sublist _).length_le
  · simp at h

/-- The marks at the beginning of a text that end a string: three, after up to two of its own. -/
def closing? (mark : Char) (s : Text) : Option (Text × Text) :=
  let marks := (s.takeWhile (· = mark)).length
  if marks < 3 then none
  else some (List.replicate (min (marks - 3) 2) mark, s.drop (min marks 5))

/-- A string between three marks; only between quotation marks are there escapes. -/
def cutMultiline (mark : Char) : Text → Option (Text × Text)
  | [] => none
  | c :: s =>
    match closing? mark (c :: s) with
    | some (own, rest) => some (own, rest)
    | none =>
      if c = '\\' ∧ mark = '"' then
        match _h : continued? s with
        | some rest => cutMultiline mark rest
        | none =>
          match escape? s with
          | some (d, taken) => (cutMultiline mark (s.drop taken)).map (before d)
          | none => none
      else if isPlain c ∨ c = '\n' then (cutMultiline mark s).map (before c)
      else none
termination_by s => s.length
decreasing_by
  · exact Nat.lt_succ_of_le (length_continued? _h)
  all_goals simp only [List.length_drop, List.length_cons]; omega

/-- A string over several lines; a line end right after the opening marks is not part of it. -/
def cutLines (mark : Char) (s : Text) : Option (Text × Text) :=
  match s with
  | '\n' :: s => cutMultiline mark s
  | s => cutMultiline mark s

/-! ## Any string -/

/-- The string that begins with an opening mark, if one stands there. -/
def cutString? (s : Text) : Option (Option (Text × Text)) :=
  match s with
  | '"' :: '"' :: '"' :: s => some (cutLines '"' s)
  | '"' :: s => some (cutQuoted s)
  | '\'' :: '\'' :: '\'' :: s => some (cutLines '\'' s)
  | '\'' :: s => some (cutLiteral s)
  | _ => none

end Toml
end SvgEdit
