import SvgEdit.Markup.Escape
import Mathlib

/-!
# Values with references

A value can be unescaped exactly if each `&` in it begins a reference. What stands between `&` and
`;` are letters, digits and the number sign.
-/
namespace SvgEdit

/-- What may stand between `&` and `;`. -/
structure Refers (body : Text) : Prop where
  noEnd : ';' ∉ body
  noStart : '&' ∉ body
  character : ∃ c, referencedCharacter 0 body = .ok c

/-- Every `&` begins a reference. -/
inductive References : Text → Prop
  | nil : References []
  | plain {c : Char} {s : Text} (other : c ≠ '&') (later : References s) : References (c :: s)
  | reference {body s : Text} (refers : Refers body) (later : References s) : References ('&' :: (body ++ ';' :: s))

theorem references_cons_iff {c : Char} {s : Text} (other : c ≠ '&') : References (c :: s) ↔ References s := by
  constructor
  · intro h
    cases h with
    | plain _ later => exact later
    | reference => exact absurd rfl other
  · exact .plain other

/-- Text without `&` changes nothing. -/
theorem references_append_iff {s t : Text} (free : '&' ∉ s) : References (s ++ t) ↔ References t := by
  induction s with
  | nil => rfl
  | cons c s ih =>
    rw [List.mem_cons, not_or] at free
    rw [List.cons_append, references_cons_iff (Ne.symm free.1), ih free.2]

theorem references_of_free {s : Text} (free : '&' ∉ s) : References s := by
  have whole := (references_append_iff free).mpr .nil
  rwa [List.append_nil] at whole

/-! ## Reading -/

theorem referencedCharacter_start (start start' : Nat) (body : Text) (c : Char) :
    referencedCharacter start body = .ok c ↔ referencedCharacter start' body = .ok c := by
  unfold referencedCharacter
  split
  · rfl
  · rfl
  · cases namedCharacter? body <;> simp

theorem map_eq_ok_iff {ε α β : Type} {f : α → β} {x : Except ε α} {b : β} :
    x.map f = .ok b ↔ ∃ a, x = .ok a ∧ f a = b := by
  cases x <;> simp [Except.map]

theorem exists_map_eq_ok_iff {ε α β : Type} {f : α → β} {x : Except ε α} : (∃ b, x.map f = .ok b) ↔ ∃ a, x = .ok a := by
  cases x <;> simp [Except.map]

/-- An open reference ends here, `read` being the part of its body before, last character first. -/
def EndsReference (read s : Text) : Prop :=
  ∃ body rest, s = body ++ ';' :: rest ∧ Refers (read.reverse ++ body) ∧ References rest

theorem references_ampersand_iff {s : Text} : References ('&' :: s) ↔ EndsReference [] s := by
  constructor
  · intro h
    cases h with
    | plain other _ => exact absurd rfl other
    | reference refers later => exact ⟨_, _, rfl, refers, later⟩
  · rintro ⟨body, rest, rfl, refers, later⟩
    exact .reference refers later

namespace EndsReference

variable {read s : Text} {c : Char}

theorem not_nil : ¬ EndsReference read [] := by
  rintro ⟨body, rest, whole, -⟩
  simp at whole

theorem not_ampersand : ¬ EndsReference read ('&' :: s) := by
  rintro ⟨body, rest, whole, refers, -⟩
  cases body with
  | nil => exact absurd (List.cons.inj whole).1 (by decide)
  | cons d body =>
    obtain ⟨rfl, -⟩ := List.cons.inj whole
    exact refers.noStart (by simp)

theorem semicolon_iff : EndsReference read (';' :: s) ↔ Refers read.reverse ∧ References s := by
  constructor
  · rintro ⟨body, rest, whole, refers, later⟩
    cases body with
    | nil =>
      obtain ⟨-, rfl⟩ := List.cons.inj whole
      exact ⟨by simpa using refers, later⟩
    | cons d body =>
      obtain ⟨rfl, -⟩ := List.cons.inj whole
      exact absurd (by simp) refers.noEnd
  · rintro ⟨refers, later⟩
    exact ⟨[], s, rfl, by simpa using refers, later⟩

theorem cons_iff (noEnd : c ≠ ';') : EndsReference read (c :: s) ↔ EndsReference (c :: read) s := by
  constructor
  · rintro ⟨body, rest, whole, refers, later⟩
    cases body with
    | nil => exact absurd (List.cons.inj whole).1 noEnd
    | cons d body =>
      obtain ⟨rfl, rfl⟩ := List.cons.inj whole
      exact ⟨body, rest, rfl, by simpa using refers, later⟩
  · rintro ⟨body, rest, rfl, refers, later⟩
    exact ⟨c :: body, rest, rfl, by simpa using refers, later⟩

end EndsReference

/-- Whether a text can be unescaped, outside of a reference and inside of one. -/
theorem exists_unescapeFrom_iff (s : Text) :
    (∀ position, (∃ v, unescapeFrom position none s = .ok v) ↔ References s) ∧
      ∀ position start read, ';' ∉ read → '&' ∉ read →
        ((∃ v, unescapeFrom position (some (start, read)) s = .ok v) ↔ EndsReference read s) := by
  induction s with
  | nil =>
    refine ⟨fun position => ⟨fun _ => .nil, fun _ => ⟨[], rfl⟩⟩, fun position start read _ _ => ?_⟩
    exact ⟨fun ⟨v, h⟩ => (nomatch h), fun ends => absurd ends EndsReference.not_nil⟩
  | cons c s ih =>
    obtain ⟨outside, inside⟩ := ih
    constructor
    · intro position
      rw [unescapeFrom]
      split
      · next ampersand =>
        rw [ampersand, inside _ _ _ List.not_mem_nil List.not_mem_nil, references_ampersand_iff]
      · next other => rw [exists_map_eq_ok_iff, outside, references_cons_iff other]
    · intro position start read noEnd noStart
      rw [unescapeFrom]
      split
      · next semicolon =>
        rw [semicolon, EndsReference.semicolon_iff, ← outside (position + 1)]
        have refers : Refers read.reverse ↔ ∃ d, referencedCharacter (start + 1) read.reverse = .ok d := by
          simp only [referencedCharacter_start (start + 1) 0]
          exact ⟨Refers.character, fun character => ⟨by simpa, by simpa, character⟩⟩
        rw [refers]
        cases referencedCharacter (start + 1) read.reverse with
        | ok d => simp [exists_map_eq_ok_iff]
        | error fault => simp
      · next noSemicolon =>
        split
        · next ampersand =>
          rw [ampersand]
          exact ⟨fun ⟨v, h⟩ => (nomatch h), fun ends => absurd ends EndsReference.not_ampersand⟩
        · next noAmpersand =>
          have fresh {mark : Char} (other : c ≠ mark) (absent : mark ∉ read) : mark ∉ c :: read :=
            List.not_mem_cons_of_ne_of_not_mem other.symm absent
          rw [inside _ _ _ (fresh noSemicolon noEnd) (fresh noAmpersand noStart), EndsReference.cons_iff noSemicolon]

/-- A text can be unescaped exactly if every `&` begins a reference. -/
theorem exists_unescape_iff {s : Text} : (∃ v, unescape s = .ok v) ↔ References s :=
  (exists_unescapeFrom_iff s).1 0

/-! ## What stands in a reference -/

theorem isAlphanum_of_digitValue? {base digit : Nat} {c : Char} (h : digitValue? base c = some digit) :
    c.isAlphanum = true := by
  unfold digitValue? at h
  have kind : ('0' ≤ c ∧ c ≤ '9') ∨ ('a' ≤ c ∧ c ≤ 'z') ∨ ('A' ≤ c ∧ c ≤ 'Z') := by
    by_contra none
    rw [not_or, not_or] at none
    rw [if_neg none.1, if_neg none.2.1, if_neg none.2.2] at h
    simp at h
  simp only [Char.isAlphanum, Char.isAlpha, Char.isUpper, Char.isLower, Char.isDigit, Bool.or_eq_true,
    Bool.and_eq_true, decide_eq_true_eq]
  rcases kind with ⟨low, high⟩ | ⟨low, high⟩ | ⟨low, high⟩
  · exact .inr ⟨low, high⟩
  · exact .inl (.inr ⟨low, high⟩)
  · exact .inl (.inl ⟨low, high⟩)

theorem isAlphanum_of_readDigits {base value n : Nat} {s : Text} (h : readDigits base value s = .ok n) :
    ∀ c ∈ s, c.isAlphanum = true := by
  induction s generalizing value with
  | nil => exact fun _ member => absurd member List.not_mem_nil
  | cons c s ih =>
    rw [readDigits] at h
    split at h
    · cases h
    · next digit found =>
      split at h
      · intro d member
        rcases List.mem_cons.mp member with rfl | member
        · exact isAlphanum_of_digitValue? found
        · exact ih h d member
      · cases h

theorem isAlphanum_of_readCode {base : Nat} {digits : Text} {c : Char}
    (h : (readCode base digits >>= characterOfCode) = .ok c) : ∀ d ∈ digits, d.isAlphanum = true := by
  cases code : readCode base digits with
  | error fault =>
    rw [code] at h
    cases h
  | ok n =>
    unfold readCode at code
    split at code
    · exact fun _ member => absurd member List.not_mem_nil
    · split at code
      · cases code
      · cases number : readDigits base 0 _ with
        | error fault =>
          rw [number] at code
          cases code
        | ok m => exact isAlphanum_of_readDigits number

/-- Letters, digits and the number sign stand in a reference. -/
theorem Refers.mem {body : Text} (h : Refers body) : ∀ c ∈ body, c.isAlphanum = true ∨ c = '#' := by
  obtain ⟨d, character⟩ := h.character
  unfold referencedCharacter at character
  split at character
  · intro c member
    rcases List.mem_cons.mp member with rfl | member
    · exact .inr rfl
    · rcases List.mem_cons.mp member with rfl | member
      · exact .inl (by decide)
      · exact .inl (isAlphanum_of_readCode character c member)
  · intro c member
    rcases List.mem_cons.mp member with rfl | member
    · exact .inr rfl
    · exact .inl (isAlphanum_of_readCode character c member)
  · split at character
    · next named =>
      have name : body = ['l', 't'] ∨ body = ['g', 't'] ∨ body = ['a', 'm', 'p'] ∨ body = ['a', 'p', 'o', 's'] ∨
          body = ['q', 'u', 'o', 't'] := by
        by_contra none
        simp only [not_or] at none
        simp [namedCharacter?, none] at named
      intro c member
      rcases name with rfl | rfl | rfl | rfl | rfl <;> revert c <;> decide
    · cases character

end SvgEdit
