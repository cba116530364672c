import SvgEdit.Json.Lexeme

/-!
# What can be read of a JSON text

A tree holds what a text says up to the place where it breaks off, in the order of the text. Readers
of particular shapes go through a tree in that order too, so the first problem is the one reported,
be it one of text or one of shape. `Tree.ofText` builds the tree with a stack of open brackets.
-/
namespace SvgEdit
namespace Json

mutual

inductive Tree
  /-- No value stands here. -/
  | broken (at_ : BreakOff)
  | null
  | bool (b : Bool)
  | number (n : Except JsonBreak JsonNumber)
  | string (s : Except JsonBreak Text)
  | array (items : Items)
  | object (members : Members)

/-- The items of an array up to its end, or to where it breaks off. -/
inductive Items
  | closed
  | broken (at_ : BreakOff)
  | item (value : Tree) (next : Items)

/-- The members of an object up to its end, or to where it breaks off. -/
inductive Members
  | closed
  | broken (at_ : BreakOff)
  | member (key : Except JsonBreak Text) (value : Tree) (next : Members)

end

/-! ## Building -/

/-- An open bracket with what was read after it, the last first. -/
inductive Frame
  | array (items : List Tree)
  /-- The key of the member that is being read comes apart. -/
  | object (members : List (Except JsonBreak Text × Tree)) (key : Except JsonBreak Text)

def Items.ofReversed (stop : Items) (items : List Tree) : Items :=
  items.foldl (fun next value => .item value next) stop

def Members.ofReversed (stop : Members) (members : List (Except JsonBreak Text × Tree)) : Members :=
  members.foldl (fun next (key, value) => .member key value next) stop

/-- The tree, a value being the last thing that is read inside the open brackets. -/
def breakOff (value : Tree) : List Frame → Tree
  | [] => value
  | .array items :: frames =>
    breakOff (.array (Items.ofReversed (.broken ⟨.malformed, .malformed⟩) (value :: items))) frames
  | .object members key :: frames =>
    breakOff
      (.object (Members.ofReversed (.broken ⟨.malformed, .malformed⟩) ((key, value) :: members)))
      frames

/-- What is read next. -/
inductive Expected
  /-- A value. -/
  | value
  /-- The first item of an array, or its end. -/
  | firstItem
  /-- The first key of an object or its end, or a key after a comma. -/
  | key (first : Bool) (members : List (Except JsonBreak Text × Tree))
  /-- A colon after a key. -/
  | colon (members : List (Except JsonBreak Text × Tree)) (key : Except JsonBreak Text)
  /-- What follows a value. -/
  | after (value : Tree)

/-- Something that cannot stand where it stands. -/
def misplaced : BreakOff := ⟨.malformed, .malformed⟩

/-- The text ends too early. -/
def endOfText : BreakOff := ⟨.unfinished, .unfinished⟩

/-- The scalar that a lexeme is. -/
def scalar? : Lexeme → Option Tree
  | .null => some .null
  | .bool b => some (.bool b)
  | .number n => some (.number n)
  | .string s => some (.string s)
  | _ => none

/--
Builds the tree from lexemes, inside open brackets. A value at the outermost level ends it; the
lexemes after it are given too.
-/
def build (frames : List Frame) (expected : Expected) :
    List Lexeme → Tree × List Lexeme
  | [] =>
    match expected with
    | .value => (breakOff (.broken endOfText) frames, [])
    | .firstItem => (breakOff (.array (.broken endOfText)) frames, [])
    | .key _ members =>
      (breakOff (.object (Members.ofReversed (.broken endOfText) members)) frames, [])
    | .colon members key => (breakOff (.broken endOfText) (.object members key :: frames), [])
    | .after value =>
      match frames with
      | [] => (value, [])
      | .array items :: frames =>
        (breakOff (.array (Items.ofReversed (.broken endOfText) (value :: items))) frames, [])
      | .object members key :: frames =>
        (breakOff (.object (Members.ofReversed (.broken endOfText) ((key, value) :: members)))
          frames, [])
  | lexeme :: rest =>
    /- A value at the place of `lexeme`, the brackets around it being `outer`. -/
    let valueAt (outer : List Frame) : Tree × List Lexeme :=
      match scalar? lexeme with
      | some value => build outer (.after value) rest
      | none =>
        match lexeme with
        | .openArray => build outer .firstItem rest
        | .openObject => build outer (.key true []) rest
        | .broken at_ => (breakOff (.broken at_) outer, rest)
        | .brokenString at_ => (breakOff (.broken at_) outer, rest)
        | _ => (breakOff (.broken misplaced) outer, rest)
    match expected with
    | .value => valueAt frames
    | .firstItem =>
      match lexeme with
      | .closeArray => build frames (.after (.array .closed)) rest
      | _ => valueAt (.array [] :: frames)
    | .key first members =>
      match lexeme with
      | .string key => build frames (.colon members key) rest
      | .brokenString at_ =>
        (breakOff (.object (Members.ofReversed (.broken at_) members)) frames, rest)
      | .closeObject =>
        if first then build frames (.after (.object .closed)) rest
        else (breakOff (.object (Members.ofReversed (.broken misplaced) members)) frames, rest)
      | _ => (breakOff (.object (Members.ofReversed (.broken misplaced) members)) frames, rest)
    | .colon members key =>
      match lexeme with
      | .colon => build (.object members key :: frames) .value rest
      | _ => (breakOff (.broken misplaced) (.object members key :: frames), rest)
    | .after value =>
      match frames with
      | [] => (value, lexeme :: rest)
      | .array items :: outer =>
        match lexeme with
        | .comma => build (.array (value :: items) :: outer) .value rest
        | .closeArray =>
          build outer (.after (.array (Items.ofReversed .closed (value :: items)))) rest
        | _ =>
          (breakOff (.array (Items.ofReversed (.broken misplaced) (value :: items))) outer, rest)
      | .object members key :: outer =>
        match lexeme with
        | .comma => build outer (.key false ((key, value) :: members)) rest
        | .closeObject =>
          build outer (.after (.object (Members.ofReversed .closed ((key, value) :: members)))) rest
        | _ =>
          (breakOff (.object (Members.ofReversed (.broken misplaced) ((key, value) :: members)))
            outer, rest)

/-- What can be read of a text, and whether anything follows the value. -/
def Tree.ofText (s : Text) : Tree × Bool :=
  let (tree, rest) := build [] .value (lexemes s)
  (tree, !rest.isEmpty)

end Json
end SvgEdit
