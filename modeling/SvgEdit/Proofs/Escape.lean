import SvgEdit.Markup.Escape
import Mathlib

/-!
# Escaping and its inverse

What `escape` writes holds neither the quote around it nor a `<`, each `&` in it begins a reference, and
`unescape` reads it back.
-/
namespace SvgEdit

theorem not_mem_escapeChar {c d : Char} (special : d = '<' ∨ d = '"') : d ∉ escapeChar c := by
  unfold escapeChar
  split
  · rcases special with rfl | rfl <;> decide
  · next notLess =>
    split
    · rcases special with rfl | rfl <;> decide
    · split
      · rcases special with rfl | rfl <;> decide
      · next notQuote =>
        rw [List.mem_singleton]
        rintro rfl
        exact special.elim notLess notQuote

theorem not_mem_escape {s : Text} {d : Char} (special : d = '<' ∨ d = '"') : d ∉ escape s := by
  intro member
  rw [escape_eq] at member
  obtain ⟨c, -, written⟩ := List.mem_flatMap.mp member
  exact not_mem_escapeChar special written

/-- Reading takes a written character for the character that was written. -/
theorem unescapeFrom_escapeChar (position : Nat) (c : Char) (s : Text) :
    ∃ later, unescapeFrom position none (escapeChar c ++ s) = (unescapeFrom later none s).map (c :: ·) := by
  unfold escapeChar
  split
  · next less =>
    subst less
    exact ⟨_, rfl⟩
  · split
    · next ampersand =>
      subst ampersand
      exact ⟨_, rfl⟩
    · next notAmpersand =>
      split
      · next quote =>
        subst quote
        exact ⟨_, rfl⟩
      · refine ⟨position + c.utf8Size, ?_⟩
        rw [List.singleton_append, unescapeFrom]
        simp only [notAmpersand, if_false]

theorem unescapeFrom_escape (position : Nat) (s : Text) : unescapeFrom position none (escape s) = .ok s := by
  rw [escape_eq]
  induction s generalizing position with
  | nil => rfl
  | cons c s ih =>
    obtain ⟨later, read⟩ := unescapeFrom_escapeChar position c (s.flatMap escapeChar)
    rw [List.flatMap_cons, read, ih]
    rfl

theorem unescape_escape (s : Text) : unescape (escape s) = .ok s := unescapeFrom_escape 0 s

/-! ## References in what is written -/

/-- The references that are written. -/
def writtenReferences : List Text := ["&lt;".toList, "&amp;".toList, "&quot;".toList]

/-- A character is written as a reference with no other `&` in it, or as it is. -/
theorem escapeChar_cases (c : Char) :
    (∃ body, escapeChar c = '&' :: body ∧ '&' :: body ∈ writtenReferences ∧ '&' ∉ body) ∨
      escapeChar c = [c] ∧ c ≠ '&' := by
  by_cases special : c ∈ escapedChars
  · left
    simp only [escapedChars, List.mem_cons, List.not_mem_nil, or_false] at special
    rcases special with rfl | rfl | rfl
    · exact ⟨"lt;".toList, by decide⟩
    · exact ⟨"amp;".toList, by decide⟩
    · exact ⟨"quot;".toList, by decide⟩
  · refine .inr ⟨escapeChar_of_other special, ?_⟩
    rintro rfl
    exact special (by decide)

theorem suffix_of_free {u v t : Text} (free : '&' ∉ u) (ends : '&' :: t <:+ u ++ v) : '&' :: t <:+ v := by
  induction u with
  | nil => exact ends
  | cons c u ih =>
    rw [List.mem_cons, not_or] at free
    rcases List.suffix_cons_iff.mp ends with same | later
    · exact absurd (List.cons.inj same).1 free.1
    · exact ih free.2 later

/-- Each `&` in what is written is the beginning of a reference. -/
theorem exists_reference_of_suffix {s t : Text} (ends : '&' :: t <:+ escape s) :
    ∃ reference ∈ writtenReferences, reference <+: '&' :: t := by
  rw [escape_eq] at ends
  induction s with
  | nil => exact absurd (List.suffix_nil.mp ends) (List.cons_ne_nil _ _)
  | cons c s ih =>
    rw [List.flatMap_cons] at ends
    rcases escapeChar_cases c with ⟨body, written, listed, free⟩ | ⟨written, other⟩
    · rw [written, List.cons_append] at ends
      rcases List.suffix_cons_iff.mp ends with same | later
      · exact ⟨_, listed, s.flatMap escapeChar, same.symm⟩
      · exact ih (suffix_of_free free later)
    · rw [written] at ends
      exact ih (suffix_of_free (fun member => other (List.mem_singleton.mp member).symm) ends)

/--
A written value does not end the attribute or the tag it stands in, and it is read as the value it was
written for, whatever that value looks like. A value without special characters is written as it is.
-/
theorem escaped_value_reads_back (s : Text) :
    '"' ∉ escape s ∧ '<' ∉ escape s ∧
      (∀ before after, escape s = before ++ '&' :: after →
        ∃ reference ∈ writtenReferences, reference <+: '&' :: after) ∧
      unescape (escape s) = .ok s ∧
      ((∀ c ∈ s, c ∉ escapedChars) → escape s = s ∧ s.flatMap escapeChar = s) := by
  refine ⟨not_mem_escape (.inr rfl), not_mem_escape (.inl rfl), fun before after same => ?_, unescape_escape s,
    fun free => ⟨escape_of_free free, flatMap_escapeChar_of_free free⟩⟩
  exact exists_reference_of_suffix ⟨before, same.symm⟩

/-- What looks like references in a value is not taken for references. -/
theorem escaped_value_reads_back_lookalike :
    let s := "\"&lt;\" & <&#65;>".toList
    escape s = "&quot;&amp;lt;&quot; &amp; &lt;&amp;#65;>".toList ∧ unescape (escape s) = .ok s ∧
      escape "it's".toList = "it's".toList := by
  intro s
  refine ⟨by decide, (escaped_value_reads_back s).2.2.2.1, ?_⟩
  exact ((escaped_value_reads_back "it's".toList).2.2.2.2 (by decide)).1

end SvgEdit
