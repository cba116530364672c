import SvgEdit.Text.Basic

/-!
# Blank characters

A character is blank if it has the Unicode property White_Space. The document format itself knows
four blanks only; the wider set is the one by which text is trimmed, split into words and shrunk.
-/
namespace SvgEdit
namespace Text

/-- The characters with the property White_Space. -/
def isBlank (c : Char) : Bool :=
  let n := c.toNat
  (9 ≤ n && n ≤ 13) || n = 0x20 || n = 0x85 || n = 0xA0 || n = 0x1680 || (0x2000 ≤ n && n ≤ 0x200A)
    || n = 0x2028 || n = 0x2029 || n = 0x202F || n = 0x205F || n = 0x3000

/-- The text without the blanks at both ends. -/
def trim (s : Text) : Text := dropWhileEnd isBlank (s.dropWhile isBlank)

/-- Nothing but blanks. -/
def isBlankText (s : Text) : Bool := s.all isBlank

/-- The word being read and those after it, read from left to right. -/
def wordsFrom : (word : Text) → Text → List Text
  | word, [] => if word = [] then [] else [word.reverse]
  | word, c :: s =>
    if isBlank c then
      if word = [] then wordsFrom [] s else word.reverse :: wordsFrom [] s
    else wordsFrom (c :: word) s

/-- The longest stretches without blanks, in order. -/
def words (s : Text) : List Text := wordsFrom [] s

end Text
end SvgEdit
