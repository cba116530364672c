import SvgEdit.Shrink.Blanks
import SvgEdit.Shrink.Decimals
import SvgEdit.Proofs.Sweeping

/-!
# Fewer blanks and shorter decimals

Blanks and decimals are rewritten wherever they stand in a text. `Condensed` is all that this can do,
and a condensed text falls into the same parts as the text it is made from, as long as no part begins
within a decimal.
-/
namespace SvgEdit

/-! ## Decimals and what is written for them -/

/-- Digits, a point and digits, perhaps after a minus sign. -/
structure IsDecimal (m : Text) : Prop where
  point : ∃ c d : Char, c.isDigit = true ∧ d.isDigit = true ∧ [c, '.', d] <:+: m
  first : ∀ c ∈ m.head?, c.isDigit = true ∨ c = '-'
  rest : ∀ c ∈ m.tail, c.isDigit = true ∨ c = '.'

/-- A character of a number, whatever the notation. -/
def isNumberPart (c : Char) : Bool := c.isAlphanum || c = '.' || c = '-'

/-- What may be written for a decimal. -/
structure IsNumber (n : Text) : Prop where
  nonempty : n ≠ []
  parts : ∀ c ∈ n, isNumberPart c = true

theorem isAlphanum_of_isDigit {c : Char} (digit : c.isDigit = true) : c.isAlphanum = true := by
  simp [Char.isAlphanum, digit]

theorem isBlank_of_isNumberPart {c : Char} (part : isNumberPart c = true) : Text.isBlank c = false := by
  simp only [isNumberPart, Bool.or_eq_true, decide_eq_true_eq] at part
  rcases part with (letter | rfl) | rfl
  · exact Text.isBlank_of_isAlphanum letter
  · decide
  · decide

namespace IsDecimal

variable {m : Text}

theorem nonempty (h : IsDecimal m) : m ≠ [] := by
  rintro rfl
  obtain ⟨c, d, -, -, inside⟩ := h.point
  exact absurd (List.infix_nil.mp inside) (by simp)

theorem isNumber (h : IsDecimal m) : IsNumber m := by
  obtain ⟨c, u, rfl⟩ := List.exists_cons_of_ne_nil h.nonempty
  refine ⟨h.nonempty, fun d member => ?_⟩
  rcases List.mem_cons.mp member with rfl | member
  · rcases h.first d rfl with digit | rfl
    · simp [isNumberPart, isAlphanum_of_isDigit digit]
    · decide
  · rcases h.rest d member with digit | rfl
    · simp [isNumberPart, isAlphanum_of_isDigit digit]
    · decide

end IsDecimal

/-! ## Condensed texts -/

/-- Nothing but blanks, and one at least. -/
structure BlankRun (blanks : Text) : Prop where
  nonempty : blanks ≠ []
  blank : ∀ c ∈ blanks, Text.isBlank c = true

/-- A text that begins with a run of blanks begins with a blank. -/
theorem BlankRun.isBlank_head {blanks s t : Text} {c : Char} (run : BlankRun blanks) (whole : c :: s = blanks ++ t) :
    Text.isBlank c = true := by
  obtain ⟨d, v, rfl⟩ := List.exists_cons_of_ne_nil run.nonempty
  obtain ⟨rfl, -⟩ := List.cons.inj whole
  exact run.blank c List.mem_cons_self

/-- The characters before which blanks can go. -/
def blankStops : Text := ['>', '=', '<', '"', '\'']

/-- The second text is the first one with some decimals written otherwise and with fewer blanks. -/
inductive Condensed : Text → Text → Prop
  | nil : Condensed [] []
  | keep (c : Char) {s t : Text} : Condensed s t → Condensed (c :: s) (c :: t)
  | decimal {m n s t : Text} : IsDecimal m → IsNumber n → Condensed s t → Condensed (m ++ s) (n ++ t)
  | blank {blanks s t : Text} : BlankRun blanks → Condensed s t → Condensed (blanks ++ s) (' ' :: t)
  | noBlank {blanks s t : Text} : BlankRun blanks → (∃ c ∈ s.head?, c ∈ blankStops) → Condensed s t →
    Condensed (blanks ++ s) t
  | opening {blanks s t : Text} : BlankRun blanks → Condensed s t → Condensed ('<' :: (blanks ++ s)) ('<' :: t)

/-- A part and what is made of it: other numbers for numbers, and one blank or none for runs of blanks. -/
inductive Resembles : Text → Text → Prop
  | nil : Resembles [] []
  | keep (c : Char) {u u' : Text} (later : Resembles u u') : Resembles (c :: u) (c :: u')
  | number {m n u u' : Text} (number : IsNumber m) (other : IsNumber n) (later : Resembles u u') :
    Resembles (m ++ u) (n ++ u')
  | blanks {m n u u' : Text} (run : BlankRun m) (fewer : ∀ c ∈ n, c = ' ') (later : Resembles u u') :
    Resembles (m ++ u) (n ++ u')

/-- A mark that has no character of a text in front is found behind it. -/
theorem infix_of_infix_append {mark u v : Text} (disjoint : ∀ c ∈ u, c ∉ mark) (inside : mark <:+: u ++ v) :
    mark <:+: v := by
  induction u with
  | nil => exact inside
  | cons c u ih =>
    rcases List.infix_cons_iff.mp inside with starts | later
    · cases mark with
      | nil => exact List.nil_infix
      | cons d mark =>
        obtain ⟨rest, whole⟩ := starts
        obtain ⟨rfl, -⟩ := List.cons.inj whole
        exact absurd List.mem_cons_self (disjoint d List.mem_cons_self)
    · exact ih (fun d member => disjoint d (List.mem_cons_of_mem c member)) later

namespace IsNumber

variable {n : Text}

theorem unblanked (h : IsNumber n) : Text.unblanked n = n :=
  Text.unblanked_of_solid fun c member => isBlank_of_isNumberPart (h.parts c member)

theorem exists_solid (h : IsNumber n) : ∃ c ∈ n, Text.isBlank c = false := by
  obtain ⟨c, u, rfl⟩ := List.exists_cons_of_ne_nil h.nonempty
  exact ⟨c, List.mem_cons_self, isBlank_of_isNumberPart (h.parts c List.mem_cons_self)⟩

theorem filter_isAngle (h : IsNumber n) : n.filter isAngle = [] := by
  refine List.filter_eq_nil_iff.mpr fun c member angle => ?_
  simp only [isAngle, Bool.or_eq_true, decide_eq_true_eq] at angle
  have part := h.parts c member
  rcases angle with rfl | rfl <;> exact absurd part (by decide)

end IsNumber

theorem filter_isAngle_of_blank {blanks : Text} (blank : ∀ c ∈ blanks, Text.isBlank c = true) :
    blanks.filter isAngle = [] :=
  List.filter_eq_nil_iff.mpr fun c member => by simp [isAngle_of_isBlank c (blank c member)]

namespace Resembles

variable {u u' : Text}

/-- The parts of two texts, one after the other. -/
theorem append {m m' : Text} (left : Resembles m m') (right : Resembles u u') : Resembles (m ++ u) (m' ++ u') := by
  induction left with
  | nil => exact right
  | keep c _ ih => exact .keep c ih
  | number number other _ ih =>
    rw [List.append_assoc, List.append_assoc]
    exact .number number other ih
  | blanks run fewer _ ih =>
    rw [List.append_assoc, List.append_assoc]
    exact .blanks run fewer ih

theorem refl (u : Text) : Resembles u u := by
  induction u with
  | nil => exact .nil
  | cons c u ih => exact .keep c ih

theorem blank {blanks : Text} (run : BlankRun blanks) : Resembles blanks [' '] := by
  simpa using Resembles.blanks run (fun _ => List.mem_singleton.mp) .nil

theorem noBlank {blanks : Text} (run : BlankRun blanks) : Resembles blanks [] := by
  simpa using Resembles.blanks run (fun _ member => absurd member List.not_mem_nil) .nil

theorem decimal {m n : Text} (decimal : IsDecimal m) (number : IsNumber n) : Resembles m n := by
  simpa using Resembles.number decimal.isNumber number .nil

theorem isBlank_of_fewer {n : Text} (fewer : ∀ c ∈ n, c = ' ') : ∀ c ∈ n, Text.isBlank c = true :=
  fun c member => fewer c member ▸ rfl

/-- Nothing is added but blanks, and parts of numbers where something other than blanks was. -/
theorem part (h : Resembles u u') :
    ∀ c ∈ u', c ∈ u ∨ c = ' ' ∨ isNumberPart c = true ∧ ∃ d ∈ u, Text.isBlank d = false := by
  induction h with
  | nil => exact fun _ member => .inl member
  | keep c _ ih =>
    refine List.forall_mem_cons.mpr ⟨.inl List.mem_cons_self, fun d member => ?_⟩
    refine (ih d member).imp (List.mem_cons_of_mem c) (Or.imp_right (And.imp_right ?_))
    exact fun ⟨e, inside, noBlank⟩ => ⟨e, List.mem_cons_of_mem c inside, noBlank⟩
  | @number m n u u' number other _ ih =>
    obtain ⟨d, inside, noBlank⟩ := number.exists_solid
    refine List.forall_mem_append.mpr ⟨fun c member => ?_, fun c member => ?_⟩
    · exact .inr (.inr ⟨other.parts c member, d, List.mem_append_left u inside, noBlank⟩)
    · refine (ih c member).imp (List.mem_append_right m) (Or.imp_right (And.imp_right fun _ => ?_))
      exact ⟨d, List.mem_append_left u inside, noBlank⟩
  | @blanks m n u u' run fewer _ ih =>
    refine List.forall_mem_append.mpr ⟨fun c member => .inr (.inl (fewer c member)), fun c member => ?_⟩
    refine (ih c member).imp (List.mem_append_right m) (Or.imp_right (And.imp_right ?_))
    exact fun ⟨e, inside, noBlank⟩ => ⟨e, List.mem_append_right m inside, noBlank⟩

/-- Where something other than blanks was, something other than blanks is left. -/
theorem solid (h : Resembles u u') (some : ∃ c ∈ u, Text.isBlank c = false) : ∃ c ∈ u', Text.isBlank c = false := by
  induction h with
  | nil => exact some
  | keep c _ ih =>
    obtain ⟨d, member, noBlank⟩ := some
    rcases List.mem_cons.mp member with rfl | member
    · exact ⟨d, List.mem_cons_self, noBlank⟩
    · obtain ⟨e, inside, noBlank⟩ := ih ⟨d, member, noBlank⟩
      exact ⟨e, List.mem_cons_of_mem c inside, noBlank⟩
  | number _ other _ _ =>
    obtain ⟨c, inside, noBlank⟩ := other.exists_solid
    exact ⟨c, List.mem_append_left _ inside, noBlank⟩
  | blanks run _ _ ih =>
    obtain ⟨c, member, noBlank⟩ := some
    rcases List.mem_append.mp member with member | member
    · rw [run.blank c member] at noBlank
      cases noBlank
    · obtain ⟨e, inside, noBlank⟩ := ih ⟨c, member, noBlank⟩
      exact ⟨e, List.mem_append_right _ inside, noBlank⟩

/-- Angle brackets stay. -/
theorem filter_isAngle (h : Resembles u u') : u'.filter isAngle = u.filter isAngle := by
  induction h with
  | nil => rfl
  | keep c _ ih => rw [List.filter_cons, List.filter_cons, ih]
  | number number other _ ih => rw [List.filter_append, List.filter_append, number.filter_isAngle, other.filter_isAngle, ih]
  | blanks run fewer _ ih =>
    rw [List.filter_append, List.filter_append, filter_isAngle_of_blank run.blank,
      filter_isAngle_of_blank (isBlank_of_fewer fewer), ih]

/-- A mark without parts of numbers that is found at the front, but for blanks, was there before. -/
theorem prefix_unblanked (h : Resembles u u') {mark : Text} (noNumber : ∀ c ∈ mark, isNumberPart c = false)
    (starts : mark <+: Text.unblanked u') : mark <+: Text.unblanked u := by
  induction h generalizing mark with
  | nil => exact starts
  | keep c _ ih =>
    cases blank : Text.isBlank c with
    | true =>
      rw [Text.unblanked_cons_of_blank blank] at starts ⊢
      exact ih noNumber starts
    | false =>
      rw [Text.unblanked_cons_of_solid blank] at starts ⊢
      cases mark with
      | nil => exact List.nil_prefix
      | cons d mark =>
        obtain ⟨rfl, later⟩ := List.cons_prefix_cons.mp starts
        exact List.cons_prefix_cons.mpr ⟨rfl, ih (fun e member => noNumber e (List.mem_cons_of_mem d member)) later⟩
  | @number m n u u' number other _ ih =>
    rw [Text.unblanked_append, other.unblanked] at starts
    cases mark with
    | nil => exact List.nil_prefix
    | cons d mark =>
      obtain ⟨c, n, rfl⟩ := List.exists_cons_of_ne_nil other.nonempty
      obtain ⟨rfl, -⟩ := List.cons_prefix_cons.mp starts
      have part := other.parts d List.mem_cons_self
      rw [noNumber d List.mem_cons_self] at part
      cases part
  | blanks run fewer _ ih =>
    rw [Text.unblanked_append, Text.unblanked_of_blank (isBlank_of_fewer fewer)] at starts
    rw [Text.unblanked_append, Text.unblanked_of_blank run.blank]
    exact ih noNumber starts

/-- The same for a mark that is found anywhere. -/
theorem infix_unblanked (h : Resembles u u') {mark : Text} (noNumber : ∀ c ∈ mark, isNumberPart c = false)
    (inside : mark <:+: Text.unblanked u') : mark <:+: Text.unblanked u := by
  induction h with
  | nil => exact inside
  | @keep c u u' later ih =>
    cases blank : Text.isBlank c with
    | true =>
      rw [Text.unblanked_cons_of_blank blank] at inside ⊢
      exact ih inside
    | false =>
      have starts := (Resembles.keep c later).prefix_unblanked noNumber
      rw [Text.unblanked_cons_of_solid blank, Text.unblanked_cons_of_solid blank] at starts
      rw [Text.unblanked_cons_of_solid blank, List.infix_cons_iff] at inside ⊢
      exact inside.imp starts ih
  | @number m n u u' number other _ ih =>
    rw [Text.unblanked_append, other.unblanked] at inside
    have disjoint : ∀ c ∈ n, c ∉ mark := fun c member mark => by
      have part := other.parts c member
      rw [noNumber c mark] at part
      cases part
    rw [Text.unblanked_append]
    exact (ih (infix_of_infix_append disjoint inside)).trans (List.suffix_append _ _).isInfix
  | blanks run fewer _ ih =>
    rw [Text.unblanked_append, Text.unblanked_of_blank (isBlank_of_fewer fewer)] at inside
    rw [Text.unblanked_append, Text.unblanked_of_blank run.blank]
    exact ih inside

/-- Blanks are made of blanks. -/
theorem spaces (h : Resembles u u') (blank : Spaces u) : Spaces u' := by
  intro c member
  rcases h.part c member with inside | rfl | ⟨-, d, inside, noBlank⟩
  · exact blank c inside
  · decide
  · rw [Text.isBlank_of_isSpace (blank d inside)] at noBlank
    cases noBlank

theorem isBlankText (h : Resembles u u') (blank : Text.isBlankText u = true) : Text.isBlankText u' = true := by
  rw [Text.isBlankText, List.all_eq_true] at blank ⊢
  intro c member
  rcases h.part c member with inside | rfl | ⟨-, d, inside, noBlank⟩
  · exact blank c inside
  · decide
  · rw [blank d inside] at noBlank
    cases noBlank

/-- A character that is neither a blank nor part of a number is not added. -/
theorem not_mem (h : Resembles u u') {c : Char} (absent : c ∉ u) (space : c ≠ ' ') (number : isNumberPart c = false) :
    c ∉ u' := by
  intro member
  rcases h.part c member with inside | same | ⟨part, -⟩
  · exact absent inside
  · exact space same
  · rw [number] at part
    cases part

theorem free (h : Resembles u u') {marks : Text} (free : Free marks u)
    (others : ∀ c ∈ marks, c ≠ ' ' ∧ isNumberPart c = false) : Free marks u' := fun c member mark =>
  h.not_mem (free.not_mem mark) (others c mark).1 (others c mark).2 member

end Resembles

/-! ## Parts of a condensed text -/

/-- No run of blanks and no decimal goes on from `u` into `s`. -/
structure Parted (u s : Text) : Prop where
  noBlank : ∀ c ∈ s.head?, Text.isBlank c = false
  noDecimal : (∀ c ∈ s.head?, c.isDigit = false ∧ c ≠ '.') ∨ ∀ c ∈ u, Text.isBlank c = true

namespace Parted

variable {u v s : Text}

theorem of_head {c : Char} (noBlank : Text.isBlank c = false) (noDigit : c.isDigit = false) (noPoint : c ≠ '.') :
    Parted u (c :: s) := by
  refine ⟨fun d head => ?_, .inl fun d head => ?_⟩ <;> obtain rfl := Option.some.inj head
  · exact noBlank
  · exact ⟨noDigit, noPoint⟩

theorem mono (h : Parted u s) (part : ∀ c ∈ v, c ∈ u) : Parted v s :=
  ⟨h.noBlank, h.noDecimal.imp id fun blank c member => blank c (part c member)⟩

end Parted

/-- A character that is found as it stands. -/
structure Fixed (c : Char) : Prop where
  noBlank : Text.isBlank c = false
  noDigit : c.isDigit = false
  noMinus : c ≠ '-'

instance (c : Char) : Decidable (Fixed c) :=
  decidable_of_iff (Text.isBlank c = false ∧ c.isDigit = false ∧ c ≠ '-')
    ⟨fun ⟨noBlank, noDigit, noMinus⟩ => ⟨noBlank, noDigit, noMinus⟩, fun h => ⟨h.noBlank, h.noDigit, h.noMinus⟩⟩

theorem Fixed.of_isAlpha {c : Char} (letter : c.isAlpha = true) : Fixed c := by
  have letter' : c.isAlphanum = true := by rw [Char.isAlphanum, letter, Bool.true_or]
  refine ⟨Text.isBlank_of_isAlphanum letter', ?_, by rintro rfl; cases letter⟩
  simp only [Char.isAlpha, Char.isUpper, Char.isLower, Bool.or_eq_true, Bool.and_eq_true, decide_eq_true_eq,
    UInt32.le_iff_toNat_le] at letter
  rw [Char.isDigit, Bool.and_eq_false_iff, decide_eq_false_iff_not, decide_eq_false_iff_not]
  simp only [ge_iff_le, UInt32.le_iff_toNat_le]
  simp at letter ⊢
  omega

/-- A run of which no character may begin `s` ends before `s`. -/
theorem exists_of_append_eq {m r u s : Text} {c : Char} (same : m ++ r = c :: u ++ s)
    (stops : ∀ d ∈ s.head?, d ∉ m.tail) : ∃ v, c :: u = m ++ v ∧ r = v ++ s := by
  rcases List.append_eq_append_iff.mp same with ⟨v, left, right⟩ | ⟨v, left, right⟩
  · exact ⟨v, left, right⟩
  · cases v with
    | nil =>
      rw [List.append_nil] at left
      exact ⟨[], by rw [left, List.append_nil], right.symm⟩
    | cons d v =>
      rw [right] at stops
      refine absurd ?_ (stops d rfl)
      rw [left]
      simp

/-- A decimal at the front of two parts ends in the first one. -/
theorem Parted.ends_decimal {c : Char} {u s m r : Text} (parted : Parted (c :: u) s) (decimal : IsDecimal m)
    (whole : c :: u ++ s = m ++ r) : ∀ d ∈ s.head?, d ∉ m.tail := by
  intro d head member
  rcases parted.noDecimal with apart | blank
  · obtain ⟨noDigit, noPoint⟩ := apart d head
    rcases decimal.rest d member with digit | same
    · rw [noDigit] at digit
      cases digit
    · exact noPoint same
  · obtain ⟨e, v, rfl⟩ := List.exists_cons_of_ne_nil decimal.nonempty
    obtain ⟨rfl, -⟩ := List.cons.inj whole
    have part := isBlank_of_isNumberPart (decimal.isNumber.parts c List.mem_cons_self)
    rw [blank c List.mem_cons_self] at part
    cases part

/-- A text falls into a part made of `u` and one made of `s`; the first is there if `u` is and no blanks can go before `s`. -/
def FallsInto (u s t : Text) : Prop :=
  ∃ u' t', t = u' ++ t' ∧ Resembles u u' ∧ Condensed s t' ∧ (u ≠ [] → (∀ c ∈ s.head?, c ∉ blankStops) → u' ≠ [])

namespace FallsInto

variable {u s t : Text}

theorem append_left {m m' : Text} (alike : Resembles m m') (nonempty : m' ≠ []) (h : FallsInto u s t) :
    FallsInto (m ++ u) s (m' ++ t) := by
  obtain ⟨u', t', rfl, later, rest, -⟩ := h
  exact ⟨m' ++ u', t', by rw [List.append_assoc], alike.append later, rest, fun _ _ =>
    List.append_ne_nil_of_left_ne_nil nonempty u'⟩

theorem noBlank {blanks : Text} (run : BlankRun blanks) (stop : ∃ c ∈ (u ++ s).head?, c ∈ blankStops)
    (h : FallsInto u s t) : FallsInto (blanks ++ u) s t := by
  obtain ⟨u', t', rfl, later, rest, kept⟩ := h
  refine ⟨u', t', rfl, (Resembles.noBlank run).append later, rest, fun _ noStop => kept ?_ noStop⟩
  rintro rfl
  obtain ⟨d, head, mark⟩ := stop
  exact noStop d head mark

end FallsInto

namespace Condensed

variable {s t u : Text}

/-- A condensed text falls into a part made of `u` and one made of what follows. -/
theorem exists_parts (h : Condensed (u ++ s) t) (parted : Parted u s) : FallsInto u s t := by
  induction size : u.length using Nat.strong_induction_on generalizing u t with
  | _ n ih =>
    cases u with
    | nil => exact ⟨[], t, rfl, .refl [], h, fun nonempty => absurd rfl nonempty⟩
    | cons c u =>
      -- What is rewritten at the front ends within `u`, and the rest of `u` is shorter.
      have rest {m r t' : Text} (whole : c :: u ++ s = m ++ r) (nonempty : m ≠ []) (stops : ∀ d ∈ s.head?, d ∉ m.tail)
          (later : Condensed r t') : ∃ v, c :: u = m ++ v ∧ r = v ++ s ∧ FallsInto v s t' := by
        obtain ⟨v, left, rfl⟩ := exists_of_append_eq whole.symm stops
        refine ⟨v, left, rfl, ih v.length ?_ later (parted.mono fun d member => ?_) rfl⟩
        · have long := List.length_pos_iff.mpr nonempty
          rw [← size, left, List.length_append]
          omega
        · exact left ▸ List.mem_append_right m member
      have stops {blanks : Text} (run : BlankRun blanks) : ∀ d ∈ s.head?, d ∉ blanks := by
        intro d head member
        have blank := run.blank d member
        rw [parted.noBlank d head] at blank
        cases blank
      have stopsTail {blanks : Text} (run : BlankRun blanks) : ∀ d ∈ s.head?, d ∉ blanks.tail :=
        fun d head member => stops run d head (List.mem_of_mem_tail member)
      generalize whole : c :: u ++ s = w at h
      cases h with
      | nil => cases whole
      | keep d later =>
        obtain ⟨v, left, -, falls⟩ := @rest [d] _ _ whole (List.cons_ne_nil d []) (fun _ _ => List.not_mem_nil) later
        rw [left]
        exact falls.append_left (.refl [d]) (List.cons_ne_nil d [])
      | decimal decimal number later =>
        obtain ⟨v, left, -, falls⟩ := rest whole decimal.nonempty (parted.ends_decimal decimal whole) later
        rw [left]
        exact falls.append_left (.decimal decimal number) number.nonempty
      | blank run later =>
        obtain ⟨v, left, -, falls⟩ := rest whole run.nonempty (stopsTail run) later
        rw [left]
        exact falls.append_left (.blank run) (List.cons_ne_nil ' ' [])
      | noBlank run stop later =>
        obtain ⟨v, left, rfl, falls⟩ := rest whole run.nonempty (stopsTail run) later
        rw [left]
        exact falls.noBlank run stop
      | @opening blanks r t' run later =>
        obtain ⟨v, left, -, falls⟩ := @rest ('<' :: blanks) _ _ whole (List.cons_ne_nil '<' blanks) (stops run) later
        rw [left]
        exact falls.append_left ((Resembles.refl ['<']).append (.noBlank run)) (List.cons_ne_nil '<' [])

/-- A fixed character stays where it stands. -/
theorem exists_fixed {c : Char} (h : Condensed (c :: s) t) (fixed : Fixed c)
    (apart : c = '<' → ∀ d ∈ s.head?, Text.isBlank d = false) : ∃ t', t = c :: t' ∧ Condensed s t' := by
  have noRun {blanks r : Text} (run : BlankRun blanks) (whole : c :: s = blanks ++ r) : False := by
    have blank := run.isBlank_head whole
    rw [fixed.noBlank] at blank
    cases blank
  generalize whole : c :: s = w at h
  cases h with
  | nil => cases whole
  | keep d later =>
    obtain ⟨rfl, rfl⟩ := List.cons.inj whole
    exact ⟨_, rfl, later⟩
  | decimal decimal number later =>
    obtain ⟨d, v, rfl⟩ := List.exists_cons_of_ne_nil decimal.nonempty
    obtain ⟨rfl, -⟩ := List.cons.inj whole
    rcases decimal.first c rfl with digit | minus
    · rw [fixed.noDigit] at digit
      cases digit
    · exact absurd minus fixed.noMinus
  | blank run later => exact (noRun run whole).elim
  | noBlank run stop later => exact (noRun run whole).elim
  | @opening blanks r t₀ run later =>
    obtain ⟨rfl, rfl⟩ := List.cons.inj whole
    obtain ⟨d, v, rfl⟩ := List.exists_cons_of_ne_nil run.nonempty
    have blank := run.blank d List.mem_cons_self
    rw [apart rfl d rfl] at blank
    cases blank

theorem exists_fixedText (h : Condensed (u ++ s) t) (fixed : ∀ c ∈ u, Fixed c ∧ c ≠ '<') :
    ∃ t', t = u ++ t' ∧ Condensed s t' := by
  induction u generalizing t with
  | nil => exact ⟨t, rfl, h⟩
  | cons c u ih =>
    obtain ⟨here, other⟩ := fixed c List.mem_cons_self
    obtain ⟨t', rfl, later⟩ := exists_fixed h here fun same => absurd same other
    obtain ⟨t'', rfl, rest⟩ := ih later fun d member => fixed d (List.mem_cons_of_mem c member)
    exact ⟨t'', rfl, rest⟩

/-- A name without blanks and decimals stays as it is. -/
theorem exists_name (h : Condensed (u ++ s) t) (steady : Steady u) (noLess : '<' ∉ u)
    (follows : ∀ c ∈ s.head?, c.isDigit = false ∧ c ≠ '.') : ∃ t', t = u ++ t' ∧ Condensed s t' := by
  induction u generalizing t with
  | nil => exact ⟨t, rfl, h⟩
  | cons c u ih =>
    have tail : Steady u := ⟨fun d member => steady.noBlank d (List.mem_cons_of_mem c member),
      fun d e digit digit' inside => steady.noDecimal d e digit digit' (inside.trans (List.suffix_cons c u).isInfix)⟩
    rw [List.mem_cons, not_or] at noLess
    have noRun {blanks r : Text} (run : BlankRun blanks) (whole : c :: u ++ s = blanks ++ r) : False := by
      have blank := run.isBlank_head whole
      rw [steady.noBlank c List.mem_cons_self] at blank
      cases blank
    generalize whole : c :: u ++ s = w at h
    cases h with
    | nil => cases whole
    | keep d later =>
      obtain ⟨rfl, rfl⟩ := List.cons.inj whole
      obtain ⟨t', rfl, rest⟩ := ih later tail noLess.2
      exact ⟨t', rfl, rest⟩
    | @decimal m n r t₀ decimal number later =>
      have stops : ∀ d ∈ s.head?, d ∉ m.tail := by
        intro d head member
        obtain ⟨noDigit, noPoint⟩ := follows d head
        rcases decimal.rest d member with digit | same
        · rw [noDigit] at digit
          cases digit
        · exact noPoint same
      obtain ⟨v, left, -⟩ := exists_of_append_eq whole.symm stops
      obtain ⟨d, e, digit, digit', inside⟩ := decimal.point
      exact absurd (inside.trans ⟨[], v, left.symm⟩) (steady.noDecimal d e digit digit')
    | blank run later => exact (noRun run whole).elim
    | noBlank run stop later => exact (noRun run whole).elim
    | opening run later =>
      obtain ⟨rfl, -⟩ := List.cons.inj whole
      exact absurd rfl noLess.1

end Condensed

end SvgEdit
