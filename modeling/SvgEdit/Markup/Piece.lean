import SvgEdit.Markup.Tag

/-!
# Pieces of a source text

Source text is cut into pieces: runs of text, references, comments, character data, document type
declarations, instructions and tags. `Piece.read` takes one piece off the front and `readPieces` all
of them, checking that end tags close what is open. What is cut off is what was there: the sources
of the pieces, one after the other, are the text that was read.
-/
namespace SvgEdit

/-- A piece of a source text. -/
inductive Piece
  | text (run : Text)
  | reference (body : Text)
  | comment (body : Text)
  | characterData (body : Text)
  /-- The keyword as it is spelled, and all that follows it. -/
  | doctype (keyword content : Text)
  | instruction (body : Text)
  | startTag (inside : Text)
  /-- The inside without the slash at its end. -/
  | emptyTag (inside : Text)
  | endTag (inside : Text)
deriving DecidableEq, Repr

namespace Piece

/-- The source of a piece. -/
def source : Piece → Text
  | text run => run
  | reference body => '&' :: (body ++ [';'])
  | comment body => '<' :: '!' :: '-' :: '-' :: (body ++ ['-', '-', '>'])
  | characterData body =>
    '<' :: '!' :: '[' :: 'C' :: 'D' :: 'A' :: 'T' :: 'A' :: '[' :: (body ++ [']', ']', '>'])
  | doctype keyword content => '<' :: '!' :: (keyword ++ content ++ ['>'])
  | instruction body => '<' :: '?' :: (body ++ ['?', '>'])
  | startTag inside => '<' :: (inside ++ ['>'])
  | emptyTag inside => '<' :: (inside ++ ['/', '>'])
  | endTag inside => '<' :: '/' :: (inside ++ ['>'])

/-- The name in an end tag: blanks at its end do not count, unless there is nothing else. -/
def endName (inside : Text) : Text :=
  let name := Text.dropWhileEnd isSpace inside
  if name = [] then inside else name

end Piece

/-! ## Faults -/

/-- Why a source text cannot be cut into pieces. -/
inductive SyntaxFault
  | unclosedTag
  | unclosedComment
  | unclosedCharacterData
  | unclosedDoctype
  | unclosedInstruction
  | unknownMarkup
  | missingDoctypeName
  | unclosedReference
  | mismatchedEnd (expected found : Text)
  | unmatchedEnd (found : Text)
deriving DecidableEq, Repr

/-! ## One piece -/

/-- The quote that is open after a character. -/
def quoteAfter (quote : Option Char) (c : Char) : Option Char :=
  match quote with
  | none => if c = '"' ∨ c = '\'' then some c else none
  | some q => if c = q then none else some q

/-- The inside of a tag up to the first `>` outside quotes, and what follows it. -/
def cutTag (quote : Option Char) : Text → Option (Text × Text)
  | [] => none
  | c :: s =>
    if quote = none ∧ c = '>' then some ([], s)
    else (cutTag (quoteAfter quote c) s).map fun (inside, rest) => (c :: inside, rest)

/-- What stands before the `>` that closes the declaration around `depth` open ones. -/
def cutDeclaration (depth : Nat) : Text → Option (Text × Text)
  | [] => none
  | c :: s =>
    if depth = 0 ∧ c = '>' then some ([], s)
    else
      (cutDeclaration (if c = '<' then depth + 1 else if c = '>' then depth - 1 else depth) s).map
        fun (inside, rest) => (c :: inside, rest)

/-- The keyword of a document type declaration; any mix of cases will do. -/
def isDoctypeKeyword (s : Text) : Bool := s.map Char.toLower = "doctype".toList

/-- A fault and the byte where it stands. -/
abbrev Located (α : Type) := α × Nat

/-- Reads what follows `<!`. -/
def readDeclaration (s : Text) : Except (Located SyntaxFault) (Piece × Text) :=
  match s with
  | '-' :: s =>
    match s with
    | '-' :: s =>
      match Text.cut? ['-', '-', '>'] s with
      | some (body, rest) => .ok (.comment body, rest)
      | none => .error (.unclosedComment, 0)
    | _ => .error (.unclosedComment, 0)
  | '[' :: s =>
    match Text.dropPrefix? ['C', 'D', 'A', 'T', 'A', '['] s with
    | some s =>
      match Text.cut? [']', ']', '>'] s with
      | some (body, rest) => .ok (.characterData body, rest)
      | none => .error (.unclosedCharacterData, 0)
    | none => .error (.unclosedCharacterData, 0)
  | c :: _ =>
    if c = 'D' ∨ c = 'd' then
      match cutDeclaration 0 s with
      | some (inside, rest) =>
        if isDoctypeKeyword (inside.take 7) then
          if (inside.drop 7).all isSpace then
            .error (.missingDoctypeName, 2 + Text.size inside)
          else .ok (.doctype (inside.take 7) (inside.drop 7), rest)
        else .error (.unclosedDoctype, 0)
      | none => .error (.unclosedDoctype, 0)
    else .error (.unknownMarkup, 0)
  | [] => .error (.unknownMarkup, 0)

/-- Reads what follows `<?`; the `?` at the end is not that at the beginning. -/
def readInstruction (s : Text) : Except (Located SyntaxFault) (Piece × Text) :=
  if s.head? = some '>' then .error (.unclosedInstruction, 0)
  else
    match Text.cut? ['?', '>'] s with
    | some (body, rest) => .ok (.instruction body, rest)
    | none => .error (.unclosedInstruction, 0)

/-- Reads what follows `<` where no declaration or instruction begins. -/
def readTag (s : Text) : Except (Located SyntaxFault) (Piece × Text) :=
  match s with
  | '/' :: s =>
    match cutTag none s with
    | some (inside, rest) => .ok (.endTag inside, rest)
    | none => .error (.unclosedTag, 0)
  | s =>
    match cutTag none s with
    | some (inside, rest) =>
      if inside.getLast? = some '/' then .ok (.emptyTag inside.dropLast, rest)
      else .ok (.startTag inside, rest)
    | none => .error (.unclosedTag, 0)

/-- Reads what follows `&`. -/
def readReference (s : Text) : Except (Located SyntaxFault) (Piece × Text) :=
  match s.dropWhile (fun c => c ≠ ';' ∧ c ≠ '&' ∧ c ≠ '<') with
  | ';' :: rest => .ok (.reference (s.takeWhile fun c => c ≠ ';' ∧ c ≠ '&' ∧ c ≠ '<'), rest)
  | _ => .error (.unclosedReference, 0)

/-- Whether a character ends a run of text. -/
def endsRun (c : Char) : Bool := c = '<' || c = '&'

/-- Takes one piece off the front of a text that begins with `c`. -/
def Piece.read (c : Char) (s : Text) : Except (Located SyntaxFault) (Piece × Text) :=
  if c = '&' then readReference s
  else if c = '<' then
    match s with
    | '!' :: s => readDeclaration s
    | '?' :: s => readInstruction s
    | s => readTag s
  else .ok (.text (c :: s.takeWhile (!endsRun ·)), s.dropWhile (!endsRun ·))

/-! ## What is read is what was there -/

theorem eq_append_of_cutTag {quote : Option Char} {s inside rest : Text}
    (h : cutTag quote s = some (inside, rest)) : s = inside ++ '>' :: rest := by
  induction s generalizing quote inside with
  | nil => simp [cutTag] at h
  | cons c s ih =>
    rw [cutTag] at h
    split at h
    · next close =>
      obtain ⟨rfl, rfl⟩ := Prod.mk.inj (Option.some.inj h)
      simp [close.2]
    · obtain ⟨⟨i, r⟩, inner, same⟩ := Option.map_eq_some_iff.mp h
      obtain ⟨rfl, rfl⟩ := Prod.mk.inj same
      simpa using ih inner

theorem eq_append_of_cutDeclaration {depth : Nat} {s inside rest : Text}
    (h : cutDeclaration depth s = some (inside, rest)) : s = inside ++ '>' :: rest := by
  induction s generalizing depth inside with
  | nil => simp [cutDeclaration] at h
  | cons c s ih =>
    rw [cutDeclaration] at h
    split at h
    · next close =>
      obtain ⟨rfl, rfl⟩ := Prod.mk.inj (Option.some.inj h)
      simp [close.2]
    · obtain ⟨⟨i, r⟩, inner, same⟩ := Option.map_eq_some_iff.mp h
      obtain ⟨rfl, rfl⟩ := Prod.mk.inj same
      simpa using ih inner

theorem readDeclaration_source {s rest : Text} {p : Piece} (h : readDeclaration s = .ok (p, rest)) :
    '<' :: '!' :: s = p.source ++ rest := by
  unfold readDeclaration at h
  split at h
  · split at h
    · split at h
      · next cut =>
        simp only [Except.ok.injEq, Prod.mk.injEq] at h
        obtain ⟨rfl, rfl⟩ := h
        simpa [Piece.source] using Text.eq_append_of_cut? cut
      · cases h
    · cases h
  · split at h
    · next start =>
      split at h
      · next cut =>
        simp only [Except.ok.injEq, Prod.mk.injEq] at h
        obtain ⟨rfl, rfl⟩ := h
        rw [Text.dropPrefix?_eq_some_iff] at start
        simpa [Piece.source, start] using Text.eq_append_of_cut? cut
      · cases h
    · cases h
  · next c rest =>
    split at h
    · split at h
      · next cut =>
        split at h
        · split at h
          · cases h
          · simp only [Except.ok.injEq, Prod.mk.injEq] at h
            obtain ⟨rfl, rfl⟩ := h
            simpa [Piece.source] using eq_append_of_cutDeclaration cut
        · cases h
      · cases h
    · cases h
  · cases h

theorem readInstruction_source {s rest : Text} {p : Piece} (h : readInstruction s = .ok (p, rest)) :
    '<' :: '?' :: s = p.source ++ rest := by
  unfold readInstruction at h
  split at h
  · cases h
  · split at h
    · next cut =>
      simp only [Except.ok.injEq, Prod.mk.injEq] at h
      obtain ⟨rfl, rfl⟩ := h
      simpa [Piece.source] using Text.eq_append_of_cut? cut
    · cases h

theorem readTag_source {s rest : Text} {p : Piece} (h : readTag s = .ok (p, rest)) :
    '<' :: s = p.source ++ rest := by
  unfold readTag at h
  split at h
  · split at h
    · next cut =>
      simp only [Except.ok.injEq, Prod.mk.injEq] at h
      obtain ⟨rfl, rfl⟩ := h
      simpa [Piece.source] using eq_append_of_cutTag cut
    · cases h
  · split at h
    · next inside rest cut =>
      have whole := eq_append_of_cutTag cut
      split at h
      · next slash =>
        simp only [Except.ok.injEq, Prod.mk.injEq] at h
        obtain ⟨rfl, rfl⟩ := h
        obtain ⟨front, rfl⟩ := List.getLast?_eq_some_iff.mp slash
        simp [Piece.source, whole]
      · simp only [Except.ok.injEq, Prod.mk.injEq] at h
        obtain ⟨rfl, rfl⟩ := h
        simp [Piece.source, whole]
    · cases h

theorem readReference_source {s rest : Text} {p : Piece} (h : readReference s = .ok (p, rest)) :
    '&' :: s = p.source ++ rest := by
  unfold readReference at h
  split at h
  · next tail ends =>
    simp only [Except.ok.injEq, Prod.mk.injEq] at h
    obtain ⟨rfl, rfl⟩ := h
    have whole := List.takeWhile_append_dropWhile
      (p := fun c => decide (c ≠ ';' ∧ c ≠ '&' ∧ c ≠ '<')) (l := s)
    rw [ends] at whole
    simpa [Piece.source] using whole.symm
  · cases h

/-- A piece and what is left make up the text. -/
theorem Piece.read_source {c : Char} {s rest : Text} {p : Piece}
    (h : Piece.read c s = .ok (p, rest)) : c :: s = p.source ++ rest := by
  unfold Piece.read at h
  split at h
  · next amp => rw [amp]; exact readReference_source h
  · split at h
    · next lt =>
      rw [lt]
      split at h
      · exact readDeclaration_source h
      · exact readInstruction_source h
      · exact readTag_source h
    · simp only [Except.ok.injEq, Prod.mk.injEq] at h
      obtain ⟨rfl, rfl⟩ := h
      simp [Piece.source]

theorem Piece.source_ne_nil {c : Char} {s rest : Text} {p : Piece}
    (h : Piece.read c s = .ok (p, rest)) : p.source ≠ [] := by
  cases p with
  | text run =>
    intro nothing
    simp only [Piece.source] at nothing
    subst nothing
    unfold Piece.read at h
    split at h
    · unfold readReference at h; split at h <;> simp at h
    · split at h
      · split at h
        · unfold readDeclaration at h; repeat' split at h
          all_goals simp at h
        · unfold readInstruction at h; repeat' split at h
          all_goals simp at h
        · unfold readTag at h; repeat' split at h
          all_goals simp at h
      · simp at h
  | _ => simp [Piece.source]

/-- What is left after a piece is shorter than what was there. -/
theorem Piece.length_of_read {c : Char} {s rest : Text} {p : Piece}
    (h : Piece.read c s = .ok (p, rest)) : rest.length < (c :: s).length := by
  have some_taken := List.length_pos_iff.mpr (Piece.source_ne_nil h)
  rw [Piece.read_source h, List.length_append]
  omega

/-! ## All pieces -/

/-- The names that are open after a piece, the innermost first; an end tag has to close that one. -/
def openAfter (opened : List Text) : Piece → Except SyntaxFault (List Text)
  | .startTag inside => .ok (tagName inside :: opened)
  | .endTag inside =>
    match opened with
    | [] => .error (.unmatchedEnd (Piece.endName inside))
    | name :: outer =>
      if name = Piece.endName inside then .ok outer
      else .error (.mismatchedEnd name (Piece.endName inside))
  | _ => .ok opened

/--
The pieces of a text that begins at byte `position` inside the elements `opened`, in order, up to
the first fault.
-/
def readPiecesFrom (opened : List Text) (position : Nat) :
    Text → List Piece × Option (Located SyntaxFault)
  | [] => ([], none)
  | c :: s =>
    match h : Piece.read c s with
    | .error (fault, offset) => ([], some (fault, position + offset))
    | .ok (p, rest) =>
      have := Piece.length_of_read h
      match openAfter opened p with
      | .error fault => ([], some (fault, position))
      | .ok opened' =>
        let (ps, fault) := readPiecesFrom opened' (position + Text.size p.source) rest
        (p :: ps, fault)
termination_by s => s.length
decreasing_by simp only [List.length_cons] at this ⊢; omega

/-- The pieces of a text, in order, up to the first fault. -/
def readPieces (s : Text) : List Piece × Option (Located SyntaxFault) := readPiecesFrom [] 0 s

end SvgEdit
