import SvgEdit.Markup.Attribute
import SvgEdit.Markup.Escape

/-!
# Tags

What stands between `<` and `>` is a name and attributes. `splitAttributes` is the reading of the
attributes, with the fault that ends it; `quoteMarks` finds the marks around the values by a scan of
its own. Positions are bytes from the beginning of the tag's inside.
-/
namespace SvgEdit

/-- The blanks of markup. -/
def isSpace (c : Char) : Bool := c = ' ' || c = '\t' || c = '\n' || c = '\r'

/-- The blanks of ASCII: those of markup and the form feed. -/
def isAsciiBlank (c : Char) : Bool := isSpace c || c = '\x0c'

/-- The name at the beginning of a tag's inside, which may be empty. -/
def tagName (inside : Text) : Text := inside.takeWhile (!isSpace ·)

/-- What follows the name in a tag's inside. -/
def tagAttributes (inside : Text) : Text := inside.dropWhile (!isSpace ·)

/-! ## Attributes as they are written -/

/-- An attribute as it is written. -/
structure WrittenAttribute where
  key : Text
  spelling : Spelling
deriving DecidableEq, Repr

/-- Why attributes cannot be split. -/
inductive AttributeFault
  | missingEquals (position : Nat)
  | missingValue (position : Nat)
  | unquotedValue (position : Nat)
  | unclosedValue (position : Nat) (mark : QuoteMark)
  | duplicate (position previous : Nat)
deriving DecidableEq, Repr

/-- Whether a character ends a key. -/
def endsKey (c : Char) : Bool := c = '=' || isSpace c

/-- Where the keys read so far begin. -/
abbrev KeyPositions := List (Text × Nat)

/--
Reads one attribute whose key begins with `first` at byte `start`; gives also what is left. A key
may begin with any character but a blank, and ends before `=` or a blank.
-/
def readAttribute (seen : KeyPositions) (start : Nat) (first : Char) (s : Text) :
    Except AttributeFault (WrittenAttribute × Text) :=
  let key := first :: s.takeWhile (!endsKey ·)
  let afterKey := (s.dropWhile (!endsKey ·))
  let stop := start + Text.size (first :: s)
  match afterKey.dropWhile isSpace with
  | '=' :: s' =>
    match seen.lookup key with
    | some previous => .error (.duplicate start previous)
    | none =>
      match s'.dropWhile isSpace with
      | [] => .error (.missingValue stop)
      | c :: body =>
        match QuoteMark.ofChar? c with
        | none => .error (.unquotedValue (stop - Text.size (c :: body)))
        | some quote =>
          match body.dropWhile (· ≠ c) with
          | [] => .error (.unclosedValue stop quote)
          | _ :: rest => .ok (⟨key, body.takeWhile (· ≠ c), quote⟩, rest)
  | rest => .error (.missingEquals (stop - Text.size rest))

/-- What is left after an attribute is shorter than what was there. -/
theorem length_of_readAttribute {seen : KeyPositions} {start : Nat} {first : Char} {s rest : Text}
    {a : WrittenAttribute} (h : readAttribute seen start first s = .ok (a, rest)) :
    rest.length < (first :: s).length := by
  unfold readAttribute at h
  dsimp only at h
  split at h
  · next s' afterKey =>
    split at h
    · contradiction
    · split at h
      · contradiction
      · next c body afterEquals =>
        split at h
        · contradiction
        · split at h
          · contradiction
          · next close r closed =>
            obtain ⟨-, rfl⟩ := Prod.mk.inj (Except.ok.inj h)
            have h1 := (List.dropWhile_sublist (!endsKey ·) (l := s)).length_le
            have h2 := (List.dropWhile_sublist isSpace (l := s.dropWhile (!endsKey ·))).length_le
            have h3 := (List.dropWhile_sublist isSpace (l := s')).length_le
            have h4 := (List.dropWhile_sublist (· ≠ c) (l := body)).length_le
            rw [afterKey] at h2
            rw [afterEquals] at h3
            rw [closed] at h4
            simp only [List.length_cons] at h2 h3 h4 ⊢
            omega
  · contradiction

/--
The attributes in a text that begins at byte `start`, in order, up to the first fault. No blank is
needed between a value and the next key.
-/
def splitAttributesFrom (seen : KeyPositions) (start : Nat) (s : Text) :
    List WrittenAttribute × Option AttributeFault :=
  match blanks : s.dropWhile isSpace with
  | [] => ([], none)
  | first :: rest =>
    let position := start + Text.size s - Text.size (first :: rest)
    match read : readAttribute seen position first rest with
    | .error fault => ([], some fault)
    | .ok (a, rest') =>
      have : rest'.length < s.length := by
        have h1 := length_of_readAttribute read
        have h2 := (List.dropWhile_sublist isSpace (l := s)).length_le
        rw [blanks] at h2
        omega
      let (as, fault) := splitAttributesFrom (seen ++ [(a.key, position)])
        (start + Text.size s - Text.size rest') rest'
      (a :: as, fault)
termination_by s.length

/-- The attributes of a tag, in order, up to the first fault. -/
def splitAttributes (inside : Text) : List WrittenAttribute × Option AttributeFault :=
  splitAttributesFrom [] (Text.size (tagName inside)) (tagAttributes inside)

/-! ## Marks around values -/

/--
The marks around the values of attributes: each stands after an `=` and blanks, and the next `=` is
looked for after the mark is met again. The scan ends where no mark follows an `=`.
-/
def quoteMarks (s : Text) : List QuoteMark :=
  match equals : s.dropWhile (· ≠ '=') with
  | [] => []
  | _ :: rest =>
    match opening : rest.dropWhile isAsciiBlank with
    | [] => []
    | c :: body =>
      match QuoteMark.ofChar? c with
      | none => []
      | some quote =>
        match closing : body.dropWhile (· ≠ c) with
        | [] => []
        | _ :: rest' =>
          have : rest'.length < s.length := by
            have h1 := (List.dropWhile_sublist (· ≠ '=') (l := s)).length_le
            have h2 := (List.dropWhile_sublist isAsciiBlank (l := rest)).length_le
            have h3 := (List.dropWhile_sublist (· ≠ c) (l := body)).length_le
            rw [equals] at h1
            rw [opening] at h2
            rw [closing] at h3
            simp only [List.length_cons] at h1 h2 h3
            omega
          quote :: quoteMarks rest'
termination_by s.length

/-! ## Attributes with their values -/

/-- Why a tag is refused. -/
inductive TagFault
  | attribute (fault : AttributeFault)
  | escape (fault : EscapeFault)
deriving DecidableEq, Repr

/-- Unescapes attributes in order; `marks` gives the quotes they are written back in. -/
def unescapeAll : List WrittenAttribute → (marks : List QuoteMark) → Except EscapeFault Attributes
  | [], _ => .ok []
  | a :: as, marks =>
    match unescape a.spelling.raw with
    | .error fault => .error fault
    | .ok value =>
      (unescapeAll as marks.tail).map
        (⟨a.key, value, some ⟨a.spelling.raw, marks.headD .double⟩⟩ :: ·)

/--
The attributes of a tag. Values are unescaped one by one as they are read, so a bad value comes
before a fault of the attributes after it.
-/
def readAttributes (inside : Text) : Except TagFault Attributes :=
  let (written, fault) := splitAttributes inside
  match unescapeAll written (quoteMarks (tagAttributes inside)) with
  | .error bad => .error (.escape bad)
  | .ok attributes =>
    match fault with
    | some fault => .error (.attribute fault)
    | none => .ok attributes

end SvgEdit
