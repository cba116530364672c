import SvgEdit.Proofs.Fragments

/-!
# What brackets hide

Identifiers and classes are looked for outside of brackets, and each search begins anew with what the one before
has left of the text. Whatever stands between an opening bracket and the next closing one is passed over by all of
them: two texts that differ there only are searched in step, and give the same names.
-/
namespace SvgEdit
namespace Query

/-! ## Texts that differ between brackets -/

/-- The text after an opening bracket, with other characters before the next closing one or the end. -/
def refilled (inside s : Text) : Text := inside ++ s.dropWhile (· ≠ ']')

/-- Two texts that differ at most in what stands between one opening bracket and the next closing one or the end. -/
inductive DifferInside : Text → Text → Prop
  | here {inside inside' after : Text} (within : ']' ∉ inside) (within' : ']' ∉ inside')
      (closes : ∀ c ∈ after.head?, c = ']') : DifferInside ('[' :: (inside ++ after)) ('[' :: (inside' ++ after))
  | later {s s' : Text} (c : Char) (differ : DifferInside s s') : DifferInside (c :: s) (c :: s')

namespace DifferInside

variable {s s' : Text}

theorem append (before : Text) (differ : DifferInside s s') : DifferInside (before ++ s) (before ++ s') := by
  induction before with
  | nil => exact differ
  | cons c before ih => exact .later c ih

theorem refilled {other : Text} (within : ']' ∉ other) (s : Text) :
    DifferInside ('[' :: s) ('[' :: Query.refilled other s) := by
  have before : ']' ∉ s.takeWhile (· ≠ ']') := fun member => by simpa using List.mem_takeWhile_imp member
  have closes : ∀ c ∈ (s.dropWhile (· ≠ ']')).head?, c = ']' := fun c head => by
    simpa using Text.stops_dropWhile (· ≠ ']') s c head
  have differ := DifferInside.here before within closes
  rwa [List.takeWhile_append_dropWhile] at differ

/-! ## Names that begin both texts -/

/-- No bracket is part of a name, so both texts begin with one name, and differ after it. -/
theorem name (differ : DifferInside s s') :
    s.takeWhile isNameChar = s'.takeWhile isNameChar ∧
      DifferInside (s.dropWhile isNameChar) (s'.dropWhile isNameChar) := by
  have bracket : ¬ isNameChar '[' = true := by decide
  induction differ with
  | here within within' closes =>
    rw [List.takeWhile_cons_of_neg bracket, List.takeWhile_cons_of_neg bracket, List.dropWhile_cons_of_neg bracket,
      List.dropWhile_cons_of_neg bracket]
    exact ⟨rfl, .here within within' closes⟩
  | later c differ ih =>
    by_cases named : isNameChar c = true
    · rw [List.takeWhile_cons_of_pos named, List.takeWhile_cons_of_pos named, List.dropWhile_cons_of_pos named,
        List.dropWhile_cons_of_pos named]
      exact ⟨congrArg (c :: ·) ih.1, ih.2⟩
    · rw [List.takeWhile_cons_of_neg named, List.takeWhile_cons_of_neg named, List.dropWhile_cons_of_neg named,
        List.dropWhile_cons_of_neg named]
      exact ⟨rfl, .later c differ⟩

/-! ## One search -/

/-- What two searches find if they find the same name, or both nothing. -/
def SameName : Option (Text × Text) → Option (Text × Text) → Prop :=
  Option.Rel fun found found' => found.1 = found'.1 ∧ DifferInside found.2 found'.2

/-- Two searches that go on in step after one character. -/
theorem SameName.map_cons {found found' : Option (Text × Text)} (same : SameName found found') (c : Char) :
    SameName (found.map fun entry => (entry.1, c :: entry.2)) (found'.map fun entry => (entry.1, c :: entry.2)) := by
  cases same with
  | none => exact .none
  | some both => exact .some ⟨both.1, .later c both.2⟩

end DifferInside

/-- Where brackets are never closed, nothing is found. -/
theorem takeMarked_unclosed (mark : Char) {s : Text} (unclosed : ']' ∉ s) : takeMarked mark true s = none := by
  induction s with
  | nil => rfl
  | cons c s ih =>
    obtain ⟨other, unclosed⟩ := List.ne_and_not_mem_of_not_mem_cons unclosed
    have still : (if c = '[' then true else if c = ']' then false else true) = true := by simp [other.symm]
    rw [takeMarked, if_neg (by simp), still, ih unclosed]
    rfl

theorem takeMarked_open {mark : Char} (other : '[' ≠ mark) (inside : Bool) (s : Text) :
    takeMarked mark inside ('[' :: s) = (takeMarked mark true s).map fun found => (found.1, '[' :: found.2) := by
  rw [takeMarked, if_neg fun h => other h.1, if_pos rfl]

namespace DifferInside

variable {s s' : Text}

/-- One search finds the same name in both texts, which differ between brackets still when it is taken out. -/
theorem takeMarked {mark : Char} (other : '[' ≠ mark) (differ : DifferInside s s') (inside : Bool) :
    SameName (takeMarked mark inside s) (takeMarked mark inside s') := by
  -- By induction on where the texts differ: up to there both searches know equally whether they are in brackets.
  induction differ generalizing inside with
  | @here inner inner' after within within' closes =>
    rw [takeMarked_open other, takeMarked_open other]
    cases after with
    | nil =>
      rw [List.append_nil, List.append_nil, takeMarked_unclosed mark within, takeMarked_unclosed mark within']
      exact .none
    | cons c after =>
      obtain rfl := closes c rfl
      rw [takeMarked_inside within, takeMarked_inside within']
      cases Query.takeMarked mark false after with
      | none => exact .none
      | some found => exact .some ⟨rfl, .here within within' fun c head => (Option.some.inj head).symm⟩
  | later c differ ih =>
    obtain ⟨same, after⟩ := differ.name
    rw [Query.takeMarked, Query.takeMarked, ← same]
    split
    · exact .some ⟨rfl, after⟩
    · exact (ih _).map_cons c

/-! ## All searches -/

/-- All classes that are taken out of both texts are the same. -/
theorem takeClasses (differ : DifferInside s s') (classes : List Text) :
    (takeClasses classes s).1 = (takeClasses classes s').1 := by
  induction classes, s using takeClasses.induct generalizing s' with
  | case1 classes s name rest taken _ ih =>
    simp only [dite_eq_ite, ← noteClass_eq] at ih
    have same := differ.takeMarked (by decide : '[' ≠ '.') false
    rw [taken] at same
    cases taken' : Query.takeMarked '.' false s' with
    | none =>
      rw [taken'] at same
      cases same
    | some found =>
      rw [taken'] at same
      obtain ⟨⟨rfl, after⟩⟩ := same
      rw [takeClasses_of_some taken, takeClasses_of_some taken']
      exact ih after
  | case2 classes s missing =>
    have same := differ.takeMarked (by decide : '[' ≠ '.') false
    rw [missing] at same
    cases missing' : Query.takeMarked '.' false s' with
    | some found =>
      rw [missing'] at same
      cases same
    | none => rw [takeClasses_of_none missing, takeClasses_of_none missing']

end DifferInside

theorem id_parse (s : Text) : (parse s).id = (takeMarked '#' false s).map Prod.fst := by
  rw [parse]
  cases takeMarked '#' false s <;> rfl

theorem classes_parse (s : Text) :
    (parse s).classes = (takeClasses [] ((takeMarked '#' false s).elim s Prod.snd)).1 := by
  rw [parse]
  cases takeMarked '#' false s <;> rfl

/--
Identifier and classes of a query do not depend on what stands between an opening bracket, wherever it is, and the
next closing one or the end.
-/
theorem parse_ignores_bracketed (before s : Text) {other : Text} (within : ']' ∉ other) :
    (parse (before ++ '[' :: refilled other s)).id = (parse (before ++ '[' :: s)).id ∧
      (parse (before ++ '[' :: refilled other s)).classes = (parse (before ++ '[' :: s)).classes := by
  have differ := (DifferInside.refilled within s).append before
  have same := differ.takeMarked (by decide : '[' ≠ '#') false
  rw [id_parse, id_parse, classes_parse, classes_parse]
  revert same
  generalize takeMarked '#' false (before ++ '[' :: s) = found
  generalize takeMarked '#' false (before ++ '[' :: refilled other s) = found'
  intro same
  cases same with
  | none => exact ⟨rfl, (differ.takeClasses []).symm⟩
  | some both => exact ⟨congrArg some both.1.symm, (both.2.takeClasses []).symm⟩

/-- A bracket inside of brackets, between marked names. -/
theorem parse_ignores_bracketed_nested :
    refilled "[#d.e".toList "x=#c[.d].b#e.a".toList = "[#d.e].b#e.a".toList ∧ ']' ∉ "[#d.e".toList ∧
      (parse "rect.a[[#d.e].b#e.a".toList).id = (parse "rect.a[x=#c[.d].b#e.a".toList).id ∧
      (parse "rect.a[[#d.e].b#e.a".toList).classes = (parse "rect.a[x=#c[.d].b#e.a".toList).classes := by
  have within : ']' ∉ "[#d.e".toList := by decide
  have whole : refilled "[#d.e".toList "x=#c[.d].b#e.a".toList = "[#d.e].b#e.a".toList := by decide
  have same := parse_ignores_bracketed "rect.a".toList "x=#c[.d].b#e.a".toList within
  rw [whole] at same
  exact ⟨whole, within, same⟩

example : (parse "rect.a[x=#c[.d].b#e.a".toList).classes = [['a'], ['b']] := by cbv

end Query
end SvgEdit
