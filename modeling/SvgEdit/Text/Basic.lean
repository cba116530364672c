/-!
# Text

Text is a list of characters. This module holds the few ways of cutting it that the readers share:
taking off a given beginning, and cutting at the first place where a given text stands. Sizes and
positions are counted in bytes of the UTF-8 encoding.
-/
namespace SvgEdit

/-- Text, character by character. -/
abbrev Text := List Char

namespace Text

/-- The text as a string. -/
def string (s : Text) : String := String.ofList s

/-- The number of bytes of the UTF-8 encoding. -/
def size (s : Text) : Nat := s.foldr (fun c n => c.utf8Size + n) 0

theorem size_nil : size [] = 0 := rfl

theorem size_cons (c : Char) (s : Text) : size (c :: s) = c.utf8Size + size s := rfl

theorem size_append (s t : Text) : size (s ++ t) = size s + size t := by
  induction s with
  | nil => simp [size_nil]
  | cons c s ih => simp [size_cons, ih, Nat.add_assoc]

/-! ## Deciding -/

/-- What holds of every character of a text is decided by going through the text. -/
instance (priority := 2000) decidableForall (s : Text) (p : Char → Prop) [DecidablePred p] :
    Decidable (∀ c ∈ s, p c) := List.decidableBAll p s

/-- The same for a character that may be there. -/
instance (priority := 2000) decidableForallOption (o : Option Char) (p : Char → Prop) [DecidablePred p] :
    Decidable (∀ c ∈ o, p c) := Option.decidableForallMem o

/-! ## Cutting -/

/-- What follows `start` in a text that begins with it. -/
def dropPrefix? : (start s : Text) → Option Text
  | [], s => some s
  | _ :: _, [] => none
  | p :: start, c :: s => if c = p then dropPrefix? start s else none

theorem dropPrefix?_eq_some_iff {start s rest : Text} :
    dropPrefix? start s = some rest ↔ s = start ++ rest := by
  induction start generalizing s with
  | nil => simp [dropPrefix?]
  | cons p start ih =>
    cases s with
    | nil => simp [dropPrefix?]
    | cons c s =>
      by_cases same : c = p
      · simp [dropPrefix?, same, ih]
      · simp [dropPrefix?, same]

/-- What stands before and after the first place where `mark` stands. -/
def cut? (mark : Text) : Text → Option (Text × Text)
  | [] => if mark = [] then some ([], []) else none
  | c :: s =>
    match dropPrefix? mark (c :: s) with
    | some rest => some ([], rest)
    | none => (cut? mark s).map fun (before, rest) => (c :: before, rest)

/-- Nothing is lost by cutting. -/
theorem eq_append_of_cut? {mark s before rest : Text} (found : cut? mark s = some (before, rest)) :
    s = before ++ mark ++ rest := by
  induction s generalizing before with
  | nil =>
    by_cases empty : mark = []
    · simp_all [cut?]
    · simp [cut?, empty] at found
  | cons c s ih =>
    rw [cut?] at found
    split at found
    · next tail starts =>
      obtain ⟨rfl, rfl⟩ := Prod.mk.inj (Option.some.inj found)
      simpa using dropPrefix?_eq_some_iff.mp starts
    · obtain ⟨⟨b, r⟩, inner, same⟩ := Option.map_eq_some_iff.mp found
      obtain ⟨rfl, rfl⟩ := Prod.mk.inj same
      simp [ih inner]

/-- The parts between the places where `mark` stands; one part more than there are marks. -/
def splitOn (mark : Char) : Text → List Text
  | [] => [[]]
  | c :: s =>
    if c = mark then [] :: splitOn mark s
    else match splitOn mark s with
      | [] => [[c]]
      | part :: parts => (c :: part) :: parts

/-- The text without the characters at its end that satisfy `p`. -/
def dropWhileEnd (p : Char → Bool) (s : Text) : Text := (s.reverse.dropWhile p).reverse

/-- The parts, one after the other, with `between` between neighbours. -/
def joinWith (between : Text) (parts : List Text) : Text := List.intercalate between parts

/-- The decimal digits of a number. -/
def ofNat (n : Nat) : Text := Nat.toDigits 10 n

/-- The decimal digits of a number, after a minus sign if it is below zero. -/
def ofInt : Int → Text
  | .ofNat n => ofNat n
  | .negSucc n => '-' :: ofNat (n + 1)

/-! ## Substituting -/

/--
The text with every match of `step` replaced, from left to right. At each place `step` is asked for
what to write instead and what is left to read; a match has to take at least one character.
-/
def substitute (step : Text → Option (Text × Text)) : Text → Text
  | [] => []
  | c :: s =>
    match step (c :: s) with
    | some (new, rest) =>
      if rest.length ≤ s.length then new ++ substitute step rest else c :: substitute step s
    | none => c :: substitute step s
termination_by s => s.length
decreasing_by all_goals simp only [List.length_cons]; omega

end Text
end SvgEdit
