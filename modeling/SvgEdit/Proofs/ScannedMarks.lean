import SvgEdit.Proofs.Attributes

/-!
# Marks that the scan finds

The scan for marks knows no keys. It goes along with the attributes up to the first key that begins with an
equals sign, which it takes for the one before the value. Unless a mark follows there in the key itself, the
scan ends, and neither this attribute nor any after it has its mark found.
-/
namespace SvgEdit

/-- The key does not begin with an equals sign. -/
abbrev WrittenAttribute.Clear (w : WrittenAttribute) : Prop := w.key.head? ≠ some '='

/-- The key begins like a value after its equals sign: with blanks, if any, and a mark. -/
def beginsLikeValue : (key : Text) → Bool
  | '=' :: rest => (rest.dropWhile isAsciiBlank).head?.any fun c => (QuoteMark.ofChar? c).isSome
  | _ => false

/-- The scan ends after an equals sign that no mark follows. -/
theorem quoteMarks_of_no_mark {front rest : Text} (none : '=' ∉ front)
    (unmarked : ∀ c ∈ (rest.dropWhile isAsciiBlank).head?, QuoteMark.ofChar? c = Option.none) :
    quoteMarks (front ++ '=' :: rest) = [] := by
  have frontChars : ∀ c ∈ front, decide (c ≠ '=') = true := fun c member =>
    decide_eq_true fun same => none (same ▸ member)
  rw [quoteMarks_eq, Text.dropWhile_append_of_stop frontChars (by simp)]
  dsimp only
  cases opening : rest.dropWhile isAsciiBlank with
  | nil => rfl
  | cons c body =>
    have mark := unmarked c (by rw [opening]; rfl)
    simp only [mark]

/-- What stands first after the blanks at the beginning of a key: more of the key, or the equals sign after it. -/
theorem Assigns.head?_dropWhile {s key raw rest : Text} {quote : QuoteMark} (h : Assigns s key raw quote rest) :
    (s.dropWhile isAsciiBlank).head? = (key.dropWhile isAsciiBlank).head?.or (some '=') := by
  obtain ⟨⟨between, after, rfl, blank, -⟩, -, -⟩ := h
  have blanks : ∀ c ∈ between, isAsciiBlank c = true := fun c member => by
    rw [isAsciiBlank, blank c member]
    rfl
  rw [List.append_assoc, List.dropWhile_append]
  split
  · next empty =>
    rw [Text.dropWhile_append_of_stop blanks (by simp [isAsciiBlank, isSpace]), List.isEmpty_iff.mp empty]
    rfl
  · next more =>
    rw [List.head?_append, Option.or_of_isSome, Option.or_of_isSome]
    all_goals simpa using more

/-- The marks that the scan finds are those of the attributes before the first key with an equals sign. -/
theorem Splits.quoteMarks_eq_takeWhile {seen : List Text} {s : Text} {written : List WrittenAttribute}
    (h : Splits seen s written) (plain : ∀ w ∈ written, beginsLikeValue w.key = false) :
    SvgEdit.quoteMarks s = (written.takeWhile (·.Clear)).map (·.spelling.quote) := by
  induction h with
  | done blank => exact quoteMarks_of_no_equals fun member => absurd (blank _ member) (by decide)
  | @assign _ before s key raw rest first quote written blank begins new assigns later ih =>
    obtain ⟨here, plain⟩ := List.forall_mem_cons.mp plain
    have noEquals : '=' ∉ before := fun member => absurd (blank _ member) (by decide)
    by_cases equals : first = '='
    · subst equals
      rw [List.takeWhile_cons_of_neg (by simp), List.map_nil]
      refine quoteMarks_of_no_mark noEquals fun c head => ?_
      rw [assigns.head?_dropWhile] at head
      cases found : (key.dropWhile isAsciiBlank).head? with
      | none =>
        rw [found] at head
        obtain rfl := Option.some.inj head
        rfl
      | some d =>
        rw [found] at head
        obtain rfl := Option.some.inj head
        simpa [beginsLikeValue, found] using here
    · have none : '=' ∉ before ++ [first] := by
        rw [List.mem_append, List.mem_singleton]
        exact fun member => member.elim noEquals fun same => equals same.symm
      rw [List.append_cons, assigns.quoteMarks none, ih plain, List.takeWhile_cons_of_pos (by simpa using equals)]
      rfl

/--
The scan finds the marks around all values, one for each attribute in order, if no key begins with an equals
sign. Else it finds those of the attributes before the first such key and no more, unless a key begins like a value.
-/
theorem quoteMarks_eq_quotes_iff {inside : Text} {written : List WrittenAttribute}
    (split : splitAttributes inside = (written, none)) :
    ((∀ w ∈ written, w.Clear) →
      quoteMarks (tagAttributes inside) = written.map (·.spelling.quote)) ∧
    ((∀ w ∈ written, beginsLikeValue w.key = false) →
      quoteMarks (tagAttributes inside) = (written.takeWhile (·.Clear)).map (·.spelling.quote) ∧
      (quoteMarks (tagAttributes inside) = written.map (·.spelling.quote) ↔
        ∀ w ∈ written, w.Clear)) := by
  have splits : Splits [] (tagAttributes inside) written := splitAttributesFrom_eq_iff.mp split
  refine ⟨splits.quoteMarks, fun plain => ?_⟩
  have marks := splits.quoteMarks_eq_takeWhile plain
  refine ⟨marks, fun same => ?_, splits.quoteMarks⟩
  -- As many marks as attributes, so no attribute is left out.
  have lengths := congrArg List.length (marks.symm.trans same)
  rw [List.length_map, List.length_map] at lengths
  have all := (List.takeWhile_prefix fun w : WrittenAttribute => decide w.Clear).eq_of_length lengths
  simpa using List.takeWhile_eq_self_iff.mp all

/-- Both marks, an equals sign in a value and one mark inside of the other do not lead the scan astray. -/
theorem quoteMarks_eq_quotes_iff_mixed :
    let inside := "rect x='a=\"b\"' y = \"it's\" z='='".toList
    quoteMarks (tagAttributes inside) = [.single, .double, .single] := by
  intro inside
  have split : splitAttributes inside = ([⟨"x".toList, "a=\"b\"".toList, .single⟩, ⟨"y".toList, "it's".toList, .double⟩,
      ⟨"z".toList, "=".toList, .single⟩], none) := by decide +kernel
  exact (quoteMarks_eq_quotes_iff split).1 (by decide)

/-- The first of two attributes begins with an equals sign, and the mark of neither is found. -/
theorem equals_key_loses_marks :
    let inside := "svg =a='x' b='y'".toList
    splitAttributes inside = ([⟨"=a".toList, "x".toList, .single⟩, ⟨"b".toList, "y".toList, .single⟩], none) ∧
      quoteMarks (tagAttributes inside) = [] := by
  decide +kernel

end SvgEdit
