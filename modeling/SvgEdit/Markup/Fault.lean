import SvgEdit.Markup.Piece

/-!
# Why a text is no document

Each cause is a constructor; `message` is what is said about it, and `causes` what is said about the
causes behind it, outermost first.
-/
namespace SvgEdit

/-- Why a text is no document. -/
inductive DocumentFault
  | malformed (fault : SyntaxFault) (position : Nat)
  | attribute (fault : AttributeFault)
  | escape (fault : EscapeFault)
  | mismatchedEnd (expected found : Text)
  | unexpectedEnd (found : Text)
  | unclosed (name : Text)
  | noRoot
  | secondRoot (name : Text)
  | textOutsideRoot
deriving DecidableEq, Repr

def SyntaxFault.message : SyntaxFault → String
  | unclosedTag => "tag not closed: `>` not found before end of input"
  | unclosedComment => "comment not closed: `-->` not found before end of input"
  | unclosedCharacterData => "CDATA not closed: `]]>` not found before end of input"
  | unclosedDoctype => "DOCTYPE not closed: `>` not found before end of input"
  | unclosedInstruction =>
    "processing instruction or xml declaration not closed: `?>` not found before end of input"
  | unknownMarkup => "unknown or missed symbol in markup"
  | missingDoctypeName => "`<!DOCTYPE>` declaration does not contain a name of a document type"
  | unclosedReference =>
    "entity or character reference not closed: `;` not found before end of input"
  | mismatchedEnd expected found =>
    "expected `</" ++ expected.string ++ ">`, but `</" ++ found.string ++ ">` was found"
  | unmatchedEnd found => "close tag `</" ++ found.string ++ ">` does not match any open tag"

/-- Whether the text cannot be cut at all; otherwise its pieces do not fit together. -/
def SyntaxFault.isLexical : SyntaxFault → Bool
  | missingDoctypeName | unclosedReference | mismatchedEnd .. | unmatchedEnd _ => false
  | _ => true

def SyntaxFault.causes (fault : SyntaxFault) : List String :=
  let kind := if fault.isLexical then "syntax error: " else "ill-formed document: "
  [kind ++ fault.message, fault.message]

def AttributeFault.message : AttributeFault → String
  | missingEquals position =>
    s!"position {position}: attribute key must be directly followed by `=` or space"
  | missingValue position => s!"position {position}: `=` must be followed by an attribute value"
  | unquotedValue position =>
    s!"position {position}: attribute value must be enclosed in `\"` or `'`"
  | unclosedValue position mark =>
    s!"position {position}: missing closing quote `{mark.char}` in attribute value"
  | duplicate position previous =>
    s!"position {position}: duplicated attribute, previous declaration at position {previous}"

def IntegerFault.message : IntegerFault → String
  | empty => "cannot parse integer from empty string"
  | invalidDigit => "invalid digit found in string"
  | tooLarge => "number too large to fit in target type"

/-- What is said about a reference, and about the causes behind it. -/
def EscapeFault.causes : EscapeFault → List String
  | unterminated start stop =>
    [s!"Error while escaping character at range {start}..{stop}: Cannot find ';' after '&'"]
  | unknownName start stop name =>
    [s!"at {start}..{stop}: unrecognized entity `" ++ name.string ++ "`"]
  | signedNumber =>
    ["invalid character reference: unexpected number sign", "unexpected number sign"]
  | badNumber fault =>
    ["invalid character reference: " ++ fault.message, fault.message, fault.message]
  | noCharacter code =>
    [s!"invalid character reference: `{code}` is not a valid codepoint",
      s!"`{code}` is not a valid codepoint"]
  | zero =>
    ["invalid character reference: 0x0 character is not permitted in XML",
      "0x0 character is not permitted in XML"]

namespace DocumentFault

def message : DocumentFault → String
  | .malformed _ position => s!"XML syntax error at byte {position}"
  | .attribute _ => "malformed attribute"
  | .escape _ => "invalid escape sequence in attribute value"
  | .mismatchedEnd expected found =>
    "closing tag `</" ++ found.string ++ ">` does not match open element `<" ++ expected.string
      ++ ">`"
  | .unexpectedEnd found => "closing tag `</" ++ found.string ++ ">` has no open element"
  | .unclosed name => "element `<" ++ name.string ++ ">` is never closed"
  | .noRoot => "document has no root element"
  | .secondRoot name =>
    "document has more than one root element (second is `<" ++ name.string ++ ">`)"
  | .textOutsideRoot => "text outside the root element"

def causes : DocumentFault → List String
  | .malformed fault _ => fault.causes
  | .attribute fault => [fault.message]
  | .escape fault => fault.causes
  | _ => []

end DocumentFault
end SvgEdit
