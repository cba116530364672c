import SvgEdit.Shrink.Styles
import SvgEdit.Proofs.EmptyAttributes

/-!
# Names before an equals sign

A name before an equals sign is found wherever one stands in a tag. So the keys of attributes are found, and
nothing else if no value has an equals sign.
-/
namespace SvgEdit

theorem takeWhile_append_of_head {p : Char → Bool} {s : Text} (stop : ∀ c ∈ s.head?, p c = false) (u : Text) :
    (u ++ s).takeWhile p = u.takeWhile p ∧ (u ++ s).dropWhile p = u.dropWhile p ++ s := by
  induction u with
  | nil =>
    cases s with
    | nil => exact ⟨rfl, rfl⟩
    | cons c s => simp [stop c rfl]
  | cons c u ih => cases first : p c <;> simp [first, ih]

namespace Shrink

theorem namesBeforeEquals_of_nil {s : Text} (none : s.dropWhile (!isNamePart ·) = []) : namesBeforeEquals s = [] := by
  rw [namesBeforeEquals]
  split
  · rfl
  · next found => rw [none] at found; cases found

theorem namesBeforeEquals_of_equals {s rest rest' : Text} {c : Char} (name : s.dropWhile (!isNamePart ·) = c :: rest)
    (equals : (rest.dropWhile isNamePart).dropWhile Text.isBlank = '=' :: rest') :
    namesBeforeEquals s = (c :: rest.takeWhile isNamePart) :: namesBeforeEquals rest' := by
  rw [namesBeforeEquals]
  split
  · next none => rw [none] at name; cases name
  · next found =>
    rw [name] at found
    obtain ⟨rfl, rfl⟩ := List.cons.inj found
    split
    · next same =>
      rw [equals] at same
      obtain ⟨-, rfl⟩ := List.cons.inj same
      rfl
    · next other => exact absurd equals (other _)

theorem namesBeforeEquals_of_other {s rest : Text} {c : Char} (name : s.dropWhile (!isNamePart ·) = c :: rest)
    (other : ∀ rest', (rest.dropWhile isNamePart).dropWhile Text.isBlank ≠ '=' :: rest') :
    namesBeforeEquals s = namesBeforeEquals (rest.dropWhile isNamePart) := by
  rw [namesBeforeEquals]
  split
  · next none => rw [none] at name; cases name
  · next found =>
    rw [name] at found
    obtain ⟨rfl, rfl⟩ := List.cons.inj found
    split
    · next same => exact absurd same (other _)
    · rfl

/-- What is no part of a name in front does not matter. -/
theorem namesBeforeEquals_dropWhile (s : Text) : namesBeforeEquals (s.dropWhile (!isNamePart ·)) = namesBeforeEquals s := by
  have twice := List.dropWhile_idempotent (!isNamePart ·) s
  cases name : s.dropWhile (!isNamePart ·) with
  | nil => rw [namesBeforeEquals_of_nil name, namesBeforeEquals_of_nil rfl]
  | cons c rest =>
    rw [name] at twice
    by_cases equals : ∃ rest', (rest.dropWhile isNamePart).dropWhile Text.isBlank = '=' :: rest'
    · obtain ⟨rest', equals⟩ := equals
      rw [namesBeforeEquals_of_equals name equals, namesBeforeEquals_of_equals twice equals]
    · have other := not_exists.mp equals
      rw [namesBeforeEquals_of_other name other, namesBeforeEquals_of_other twice other]

/-- Names are found on either side of a place that neither a name nor the blanks after it go across. -/
theorem namesBeforeEquals_append {s : Text} (stop : ∀ c ∈ s.head?, isNamePart c = false)
    (other : ∀ rest, s.dropWhile Text.isBlank ≠ '=' :: rest) (u : Text) :
    namesBeforeEquals (u ++ s) = namesBeforeEquals u ++ namesBeforeEquals s := by
  induction u using namesBeforeEquals.induct with
  | case1 u none =>
    rw [namesBeforeEquals_of_nil none, List.nil_append, ← namesBeforeEquals_dropWhile, List.dropWhile_append, none,
      List.isEmpty_nil, if_pos rfl, namesBeforeEquals_dropWhile]
  | case2 u c rest name rest' equals ih =>
    obtain ⟨take, drop⟩ := takeWhile_append_of_head stop rest
    have longer : (u ++ s).dropWhile (!isNamePart ·) = c :: (rest ++ s) := by
      rw [List.dropWhile_append, name]
      rfl
    have same : ((rest ++ s).dropWhile isNamePart).dropWhile Text.isBlank = '=' :: (rest' ++ s) := by
      rw [drop, List.dropWhile_append, equals]
      rfl
    rw [namesBeforeEquals_of_equals name equals, namesBeforeEquals_of_equals longer same, take, ih, List.cons_append]
  | case3 u c rest name none ih =>
    obtain ⟨-, drop⟩ := takeWhile_append_of_head stop rest
    have longer : (u ++ s).dropWhile (!isNamePart ·) = c :: (rest ++ s) := by
      rw [List.dropWhile_append, name]
      rfl
    have same (rest' : Text) : ((rest ++ s).dropWhile isNamePart).dropWhile Text.isBlank ≠ '=' :: rest' := by
      rw [drop, List.dropWhile_append]
      split
      · exact other rest'
      · next more =>
        obtain ⟨d, v, starts⟩ := List.exists_cons_of_ne_nil (mt List.isEmpty_iff.mpr more)
        rw [starts]
        intro same
        exact none v (starts.trans (by rw [(List.cons.inj same).1]))
    rw [namesBeforeEquals_of_other name none, namesBeforeEquals_of_other longer same, drop, ih]

theorem namesBeforeEquals_eq_nil {s : Text} (noEquals : '=' ∉ s) : namesBeforeEquals s = [] := by
  induction s using namesBeforeEquals.induct with
  | case1 s none => exact namesBeforeEquals_of_nil none
  | case2 s c rest name rest' equals _ =>
    have later : '=' ∈ rest := (List.dropWhile_suffix isNamePart).subset
      ((List.dropWhile_suffix Text.isBlank).subset (equals ▸ List.mem_cons_self))
    have whole : '=' ∈ s.dropWhile (!isNamePart ·) := name ▸ List.mem_cons_of_mem c later
    exact absurd ((List.dropWhile_suffix _).subset whole) noEquals
  | case3 s c rest name none ih =>
    rw [namesBeforeEquals_of_other name none]
    refine ih fun later => noEquals ?_
    have whole : '=' ∈ s.dropWhile (!isNamePart ·) :=
      name ▸ List.mem_cons_of_mem c ((List.dropWhile_suffix _).subset later)
    exact (List.dropWhile_suffix _).subset whole

end Shrink

/-! ## Attributes -/

namespace SpelledAttribute

variable {a : SpelledAttribute}

namespace Loose

/-- Names before the attribute do not go on into it. -/
theorem namesBeforeEquals_append (loose : a.Loose) (u s : Text) : Shrink.namesBeforeEquals (u ++ (a.source ++ s)) =
    Shrink.namesBeforeEquals u ++ Shrink.namesBeforeEquals (a.source ++ s) := by
  refine Shrink.namesBeforeEquals_append (fun c head => ?_) (fun rest same => ?_) u
  · obtain ⟨d, before, same⟩ := List.exists_cons_of_ne_nil loose.apart
    rw [source, same] at head
    obtain rfl := Option.some.inj head
    exact isNamePart_of_isBlank (loose.before d (by rw [same]; exact List.mem_cons_self))
  · rw [source_append_eq, Text.dropWhile_append_of_stop loose.before fun c head =>
      loose.noBlank c (head?_key loose.key head)] at same
    have first := head?_key loose.key (c := '=') (s := a.assignment s) (by rw [same]; rfl)
    exact absurd (loose.key.2 _ first) (by decide)

/-- The key is the first name, and the next ones are in the value and after it. -/
theorem namesBeforeEquals_source (loose : a.Loose) (named : ∀ c ∈ a.key, Shrink.isNamePart c = true) (s : Text) :
    Shrink.namesBeforeEquals (a.source ++ s) =
      a.key :: Shrink.namesBeforeEquals (a.after ++ a.quote.char :: (a.raw ++ a.quote.char :: s)) := by
  have stop : ∀ c ∈ (a.assignment s).head?, Shrink.isNamePart c = false := by
    intro c head
    rcases head?_assignment c head with blank | rfl
    · exact isNamePart_of_isBlank (loose.between c blank)
    · decide
  obtain ⟨d, key, same⟩ := List.exists_cons_of_ne_nil loose.key.1
  rw [same] at named
  have later := fun c member => named c (List.mem_cons_of_mem d member)
  have name : (a.source ++ s).dropWhile (!Shrink.isNamePart ·) = d :: (key ++ a.assignment s) := by
    rw [source_append_eq, same]
    refine Text.dropWhile_append_of_stop (fun c member => ?_) fun c head => ?_
    · simp [isNamePart_of_isBlank (loose.before c member)]
    · obtain rfl := Option.some.inj head
      simp [named d List.mem_cons_self]
  have equals : ((key ++ a.assignment s).dropWhile Shrink.isNamePart).dropWhile Text.isBlank =
      '=' :: (a.after ++ a.quote.char :: (a.raw ++ a.quote.char :: s)) := by
    rw [Text.dropWhile_append_of_stop later stop, dropWhile_assignment loose.between]
  rw [Shrink.namesBeforeEquals_of_equals name equals, Text.takeWhile_append_of_stop later stop, same]

/-- Without an equals sign in the value, no name is found in it. -/
theorem namesBeforeEquals_source_eq (loose : a.Loose) (named : ∀ c ∈ a.key, Shrink.isNamePart c = true)
    (noEquals : '=' ∉ a.raw) (s : Text) :
    Shrink.namesBeforeEquals (a.source ++ s) = a.key :: Shrink.namesBeforeEquals s := by
  have quote : Text.isBlank a.quote.char = false ∧ Shrink.isNamePart a.quote.char = false ∧ a.quote.char ≠ '=' :=
    ⟨a.quote.bars.noBlank, a.quote.bars.noPart, a.quote.bars.noEquals⟩
  have noNames : '=' ∉ a.after ++ a.quote.char :: a.raw := by
    have after : '=' ∉ a.after := fun member => absurd (loose.after _ member) (by decide)
    simp [after, Ne.symm quote.2.2, noEquals]
  have closing := Shrink.namesBeforeEquals_append (s := a.quote.char :: s)
    (fun c head => Option.some.inj head ▸ quote.2.1)
    (fun rest same => by
      rw [List.dropWhile_cons_of_neg (by simp [quote.1])] at same
      exact quote.2.2 (List.cons.inj same).1) (a.after ++ a.quote.char :: a.raw)
  rw [Shrink.namesBeforeEquals_eq_nil noNames, List.nil_append, ← Shrink.namesBeforeEquals_dropWhile (_ :: s),
    List.dropWhile_cons_of_pos (by simp [quote.2.1]), Shrink.namesBeforeEquals_dropWhile] at closing
  rw [loose.namesBeforeEquals_source named, ← closing]
  simp

end Loose

/-- The keys of attributes are among the names before an equals sign. -/
theorem mem_namesBeforeEquals {as : List SpelledAttribute} (listed : a ∈ as) (loose : a.Loose)
    (named : ∀ c ∈ a.key, Shrink.isNamePart c = true) (u v : Text) :
    a.key ∈ Shrink.namesBeforeEquals (u ++ as.flatMap source ++ v) := by
  obtain ⟨front, back, rfl⟩ := List.append_of_mem listed
  have whole : u ++ (front ++ a :: back).flatMap source ++ v =
      (u ++ front.flatMap source) ++ (a.source ++ (back.flatMap source ++ v)) := by simp
  rw [whole, loose.namesBeforeEquals_append, loose.namesBeforeEquals_source named]
  exact List.mem_append_right _ List.mem_cons_self

/-- Without equals signs in values, the keys of attributes are the names before an equals sign. -/
theorem namesBeforeEquals_eq_keys {as : List SpelledAttribute} (loose : ∀ a ∈ as, a.Loose)
    (named : ∀ a ∈ as, ∀ c ∈ a.key, Shrink.isNamePart c = true) (noEquals : ∀ a ∈ as, '=' ∉ a.raw) {s : Text}
    (rest : '=' ∉ s) : Shrink.namesBeforeEquals (as.flatMap source ++ s) = as.map key := by
  induction as with
  | nil => exact Shrink.namesBeforeEquals_eq_nil rest
  | cons a as ih =>
    rw [List.forall_mem_cons] at loose named noEquals
    rw [List.flatMap_cons, List.append_assoc, loose.1.namesBeforeEquals_source_eq named.1 noEquals.1,
      ih loose.2 named.2 noEquals.2, List.map_cons]

end SpelledAttribute
end SvgEdit
