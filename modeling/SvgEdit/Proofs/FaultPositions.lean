import SvgEdit.Proofs.JoinedRuns

/-!
# Where reading stops

The reader counts bytes from after a byte order mark, and tells where it stopped. There stands the mark with which
the piece begins that cannot be read or does not fit; of a document type without a name it is the one at its end.
-/
namespace SvgEdit

/-! ## Places of faults -/

/-- The character that stands where a fault is told. -/
def SyntaxFault.mark : SyntaxFault → Char
  | unclosedReference => '&'
  | missingDoctypeName => '>'
  | _ => '<'

/-- A fault of a text and the byte where it is told. -/
inductive FaultAt : Text → SyntaxFault → Nat → Prop
  | front {fault : SyntaxFault} (other : fault ≠ .missingDoctypeName) (before after : Text) :
      FaultAt (before ++ fault.mark :: after) fault (Text.size before)
  | doctype (before : Text) {keyword blanks : Text} (names : isDoctypeKeyword keyword) (blank : blanks.all isSpace)
      (after : Text) :
      FaultAt (before ++ '<' :: '!' :: (keyword ++ blanks) ++ '>' :: after) .missingDoctypeName
        (Text.size (before ++ '<' :: '!' :: (keyword ++ blanks)))

namespace FaultAt

variable {s : Text} {fault : SyntaxFault} {position : Nat}

/-- The place is a mark in the text. -/
theorem exists_mark (told : FaultAt s fault position) :
    ∃ before after, s = before ++ fault.mark :: after ∧ position = Text.size before := by
  cases told with
  | front other before after => exact ⟨before, after, rfl, rfl⟩
  | doctype before names blank after => exact ⟨_, after, rfl, rfl⟩

theorem append (front : Text) (told : FaultAt s fault position) :
    FaultAt (front ++ s) fault (Text.size front + position) := by
  cases told with
  | front other before after =>
    rw [← List.append_assoc, ← Text.size_append]
    exact .front other (front ++ before) after
  | doctype before names blank after =>
    rw [← List.append_assoc, ← List.append_assoc, ← Text.size_append, ← List.append_assoc]
    exact .doctype (front ++ before) names blank after

theorem less (marked : fault.mark = '<') (s : Text) : FaultAt ('<' :: s) fault 0 := by
  have other : fault ≠ .missingDoctypeName := by
    rintro rfl
    cases marked
  exact marked ▸ .front other [] s

end FaultAt

/-! ## One piece -/

theorem faultAt_of_readReference {s : Text} {fault : SyntaxFault} {offset : Nat}
    (refused : readReference s = .error (fault, offset)) : FaultAt ('&' :: s) fault offset := by
  unfold readReference at refused
  split at refused
  · cases refused
  · cases refused
    exact @FaultAt.front .unclosedReference nofun [] s

theorem faultAt_of_readTag {s : Text} {fault : SyntaxFault} {offset : Nat}
    (refused : readTag s = .error (fault, offset)) : FaultAt ('<' :: s) fault offset := by
  unfold readTag at refused
  split at refused
  · split at refused
    · cases refused
    · cases refused
      exact .less rfl _
  · split at refused
    · split at refused <;> cases refused
    · cases refused
      exact .less rfl _

theorem faultAt_of_readInstruction {s : Text} {fault : SyntaxFault} {offset : Nat}
    (refused : readInstruction s = .error (fault, offset)) : FaultAt ('<' :: '?' :: s) fault offset := by
  unfold readInstruction at refused
  split at refused
  · cases refused
    exact .less rfl _
  · split at refused
    · cases refused
    · cases refused
      exact .less rfl _

/-- All that is refused after `<!` is told there, unless it is a document type without a name. -/
theorem faultAt_of_readDeclaration {s : Text} {fault : SyntaxFault} {offset : Nat}
    (refused : readDeclaration s = .error (fault, offset)) : FaultAt ('<' :: '!' :: s) fault offset := by
  unfold readDeclaration at refused
  split at refused
  · split at refused
    · split at refused
      · cases refused
      · cases refused
        exact .less rfl _
    · cases refused
      exact .less rfl _
  · split at refused
    · split at refused
      · cases refused
      · cases refused
        exact .less rfl _
    · cases refused
      exact .less rfl _
  · split at refused
    · split at refused
      · next inside rest cut =>
        split at refused
        · next names =>
          split at refused
          · next blank =>
            cases refused
            have told := FaultAt.doctype [] names blank rest
            rw [List.take_append_drop, List.nil_append, Text.size_cons, Text.size_cons, ← Nat.add_assoc] at told
            rw [eq_append_of_cutDeclaration cut]
            exact told
          · cases refused
        · cases refused
          exact .less rfl _
      · cases refused
        exact .less rfl _
    · cases refused
      exact .less rfl _
  · cases refused
    exact .less rfl _

theorem faultAt_of_read {c : Char} {s : Text} {fault : SyntaxFault} {offset : Nat}
    (refused : Piece.read c s = .error (fault, offset)) : FaultAt (c :: s) fault offset := by
  unfold Piece.read at refused
  split at refused
  · next amp => exact amp ▸ faultAt_of_readReference refused
  · split at refused
    · next less =>
      subst less
      split at refused
      · exact faultAt_of_readDeclaration refused
      · exact faultAt_of_readInstruction refused
      · exact faultAt_of_readTag refused
    · cases refused

/-- A piece that closes what is not open is told where it begins. -/
theorem faultAt_of_openAfter {opened : List Text} {p : Piece} {fault : SyntaxFault}
    (refused : openAfter opened p = .error fault) (rest : Text) : FaultAt (p.source ++ rest) fault 0 := by
  cases p with
  | endTag inside =>
    cases opened with
    | nil =>
      cases refused
      exact .less rfl _
    | cons name outer =>
      rw [openAfter] at refused
      split at refused
      · cases refused
      · cases refused
        exact .less rfl _
  | _ => cases refused

/-! ## All pieces -/

/-- What is told is counted from where reading begins, over all pieces that were read. -/
theorem faultAt_of_readPiecesFrom {opened : List Text} {start position : Nat} {s : Text} {ps : List Piece}
    {fault : SyntaxFault} (stopped : readPiecesFrom opened start s = (ps, some (fault, position))) :
    ∃ offset, position = start + offset ∧ FaultAt s fault offset := by
  induction n : s.length using Nat.strong_induction_on generalizing opened start s ps with
  | _ n ih =>
    cases s with
    | nil =>
      rw [readPiecesFrom] at stopped
      cases stopped
    | cons c s =>
      rw [readPiecesFrom_cons] at stopped
      split at stopped
      · next refused =>
        cases stopped
        exact ⟨_, rfl, faultAt_of_read refused⟩
      · next p rest read =>
        have whole := Piece.read_source read
        split at stopped
        · next refused =>
          cases stopped
          exact ⟨0, rfl, whole ▸ faultAt_of_openAfter refused rest⟩
        · generalize later : readPiecesFrom _ _ rest = result at stopped
          obtain ⟨qs, stop⟩ := result
          obtain ⟨rfl, rfl⟩ := Prod.mk.inj stopped
          obtain ⟨offset, rfl, told⟩ := ih rest.length (n ▸ Piece.length_of_read read) later rfl
          exact ⟨Text.size p.source + offset, Nat.add_assoc .., whole ▸ told.append p.source⟩

theorem faultAt_of_readerFault? {s : Text} {fault : SyntaxFault} {position : Nat}
    (stopped : readerFault? s = some (fault, position)) : FaultAt (bodyOf s) fault position := by
  obtain ⟨offset, rfl, told⟩ := faultAt_of_readPiecesFrom (Prod.ext rfl stopped)
  rwa [Nat.zero_add]

/-! ## Bytes -/

/-- The bytes of a text. -/
theorem Text.data_toUTF8 (s : Text) : s.string.toUTF8.data = (s.flatMap String.utf8EncodeChar).toArray := by
  rw [Text.string, String.toUTF8_eq_toByteArray, String.toByteArray_ofList, List.utf8Encode, List.data_toByteArray]

theorem Text.length_utf8 (s : Text) : (s.flatMap String.utf8EncodeChar).length = size s := by
  induction s with
  | nil => rfl
  | cons c s ih => rw [List.flatMap_cons, List.length_append, String.length_utf8EncodeChar, ih, size_cons]

namespace FaultAt

variable {s : Text} {fault : SyntaxFault} {position : Nat}

/-- The byte at the place is that of the mark. -/
theorem byte (told : FaultAt s fault position) : s.string.toUTF8.data[position]? = some fault.mark.toUInt8 := by
  have ascii : String.utf8EncodeChar fault.mark = [fault.mark.toUInt8] := by cases fault <;> rfl
  obtain ⟨before, after, rfl, rfl⟩ := told.exists_mark
  rw [Text.data_toUTF8, List.getElem?_toArray, List.flatMap_append, List.flatMap_cons, ascii, ← Text.length_utf8,
    List.getElem?_append_right le_rfl, Nat.sub_self]
  rfl

end FaultAt

/-! ## Documents -/

/-- Only a second byte order mark is taken off without being counted. -/
theorem marksOf_eq {s : Text} (single : ¬ [byteOrderMark, byteOrderMark] <+: s) : marksOf s = (splitMark s).1 := by
  rcases splitMark_fst (splitMark s).2 with unmarked | again
  · rw [marksOf, unmarked, List.append_nil]
  · rcases splitMark_fst s with unmarked | marked
    · rw [splitMark_again s unmarked] at again
      cases again
    · have whole := marksOf_append_bodyOf s
      rw [marksOf, marked, again] at whole
      exact absurd ⟨bodyOf s, whole⟩ single

/--
What cannot be read of a text is told by a byte of the text, its byte order mark being counted too, where a mark of
markup stands. Of two byte order marks only the first would be counted.
-/
theorem Document.parse_malformed_at {s : Text} {fault : SyntaxFault} {position : Nat}
    (single : ¬ [byteOrderMark, byteOrderMark] <+: s) (parsed : Document.parse s = .error (.malformed fault position)) :
    FaultAt s fault position ∧ s.string.toUTF8.data[position]? = some fault.mark.toUInt8 := by
  cases Document.parse_eq_error_iff.mp parsed with
  | piece whole fits fault =>
    have other := Standing.fault?_eq_some fault
    simp at other
  | reader fits stopped =>
    have told := (faultAt_of_readerFault? stopped).append (marksOf s)
    rw [marksOf_append_bodyOf, marksOf_eq single] at told
    exact ⟨told, told.byte⟩

/-- An instruction, and a document type without a name. -/
def nameless : Text := '<' :: "?\u00e9\u2713?><!DocType\n>".toList

/-- After a byte order mark, and with characters of several bytes before it. -/
theorem Document.parse_malformed_at_nameless :
    ¬ [byteOrderMark, byteOrderMark] <+: byteOrderMark :: nameless ∧
      Document.parse (byteOrderMark :: nameless) = .error (.malformed .missingDoctypeName 22) ∧
      FaultAt (byteOrderMark :: nameless) .missingDoctypeName 22 ∧
      (Text.string (byteOrderMark :: nameless)).toUTF8.data[22]? = some '>'.toUInt8 := by
  have single : ¬ [byteOrderMark, byteOrderMark] <+: byteOrderMark :: nameless := by decide
  have parsed : Document.parse (byteOrderMark :: nameless) = .error (.malformed .missingDoctypeName 22) := by
    have first : Piece.read '<' "?\u00e9\u2713?><!DocType\n>".toList =
        .ok (.instruction "\u00e9\u2713".toList, '<' :: "!DocType\n>".toList) := by cbv
    have second : Piece.read '<' "!DocType\n>".toList = .error (.missingDoctypeName, 10) := by cbv
    have read : readPieces nameless = ([.instruction "\u00e9\u2713".toList], some (.missingDoctypeName, 19)) := by
      simp only [nameless, readPieces, readPiecesFrom_cons, first, openAfter, second]
      rfl
    have body : bodyOf (byteOrderMark :: nameless) = nameless := rfl
    rw [parse_eq, piecesOf, readerFault?, body, read]
    rfl
  exact ⟨single, parsed, parse_malformed_at single parsed⟩

end SvgEdit
