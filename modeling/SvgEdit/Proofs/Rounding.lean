import SvgEdit.Proofs.CondensedMarkup
import SvgEdit.Proofs.CondensingPasses
import SvgEdit.Proofs.ReadTags

/-!
# Rounded decimals

Decimals are shortened between delimiters only, and delimiters stay where they are. `Rounds` is all that
shortening does to a part of a text, the characters beside the part being known. What markup is told
apart by is no part of a number, so the parts of a text are those of the shortened one.
-/
namespace SvgEdit

open SvgEdit.Shrink

/-! ## Delimiters -/

/-- A decimal may be shortened beside the character. -/
abbrev Delimits (c : Option Char) : Prop := c.any isNumberDelimiter = true

theorem isNumberDelimiter_of_isNumberPart {c : Char} (part : isNumberPart c = true) : isNumberDelimiter c = false := by
  have noBlank := isBlank_of_isNumberPart part
  have others : ∀ d ∈ ['"', ':', ';', ','], isNumberPart d = false := by decide
  have other {d : Char} (mark : d ∈ ['"', ':', ';', ',']) : c ≠ d := by
    rintro rfl
    rw [others c mark] at part
    cases part
  simp only [isNumberDelimiter, noBlank, Bool.or_false, Bool.or_eq_false_iff, decide_eq_false_iff_not]
  exact ⟨⟨⟨other (by decide), other (by decide)⟩, other (by decide)⟩, other (by decide)⟩

theorem isSpace_of_isNumberPart {c : Char} (part : isNumberPart c = true) : isSpace c = false := by
  cases space : isSpace c with
  | false => rfl
  | true =>
    have blank := Text.isBlank_of_isSpace space
    rw [isBlank_of_isNumberPart part] at blank
    cases blank

theorem IsDecimal.not_delimits_getLast? {m : Text} (h : IsDecimal m) : ¬ Delimits m.getLast? := by
  cases last : m.getLast? with
  | none => simp
  | some c =>
    have part := h.isNumber.parts c (List.mem_of_getLast? last)
    simp [isNumberDelimiter_of_isNumberPart part]

/-! ## What stands before a part -/

theorem getLast?_cons_or (c : Char) (u : Text) (before : Option Char) :
    (c :: u).getLast?.or before = u.getLast?.or (some c) := by
  rw [List.getLast?_cons, Option.some_or, Option.or_some]

theorem IsDecimal.getLast?_or {m : Text} (h : IsDecimal m) (before : Option Char) : m.getLast?.or before = m.getLast? := by
  obtain ⟨last, found⟩ := Option.isSome_iff_exists.mp (List.getLast?_isSome.mpr h.nonempty)
  rw [found, Option.some_or]

/-! ## Rounding -/

/-- The second text is the first one with decimals between delimiters written with fewer places. -/
inductive Rounds (places : Nat) (after : Option Char) : (before : Option Char) → Text → Text → Prop
  | nil {before : Option Char} : Rounds places after before [] []
  | keep {before : Option Char} (c : Char) {s t : Text} (later : Rounds places after (some c) s t) :
      Rounds places after before (c :: s) (c :: t)
  | round {before : Option Char} {m s t : Text} (decimal : IsDecimal m) (opens : Delimits before)
      (closes : Delimits (s.head?.or after)) (later : Rounds places after m.getLast? s t) :
      Rounds places after before (m ++ s) (decimalText places before (s.head?.or after) m ++ t)

namespace Rounds

variable {places : Nat} {before after : Option Char} {s t u : Text}

theorem refl (before : Option Char) (s : Text) : Rounds places after before s s := by
  induction s generalizing before with
  | nil => exact .nil
  | cons c s ih => exact .keep c (ih _)

/-- What stands before a part does not matter if it all stays. -/
theorem append_left {m : Text} (h : Rounds places after (m.getLast?.or before) s t) :
    Rounds places after before (m ++ s) (m ++ t) := by
  induction m generalizing before with
  | nil => exact h
  | cons c m ih =>
    rw [getLast?_cons_or] at h
    exact .keep c (ih h)

theorem append_right {v : Text} (h : Rounds places (v.head?.or after) before s t) :
    Rounds places after before (s ++ v) (t ++ v) := by
  induction h with
  | nil => exact refl _ _
  | keep c _ ih => exact .keep c ih
  | @round _ m s t decimal opens closes _ ih =>
    have beside : (s ++ v).head?.or after = s.head?.or (v.head?.or after) := by
      rw [List.head?_append, Option.or_assoc]
    rw [List.append_assoc, List.append_assoc, ← beside]
    exact .round decimal opens (beside ▸ closes) ih

theorem condensed (h : Rounds places after before s t) {u v : Text} (later : Condensed u v) : Condensed (s ++ u) (t ++ v) := by
  induction h with
  | nil => exact later
  | keep c _ ih => exact .keep c ih
  | round decimal _ _ _ ih =>
    rw [List.append_assoc, List.append_assoc]
    exact .decimal decimal (isNumber_decimalText decimal) ih

/-- No reference is part of a decimal. -/
theorem references (h : Rounds places after before s t) (references : References s) : References t := by
  have fixed : Fixed '"' := by decide
  obtain ⟨t', u, same, -, references', rest⟩ :=
    Condensed.exists_value references fixed (by decide) (h.condensed (.keep '"' .nil))
  obtain ⟨v, rfl, nothing⟩ := rest.exists_fixed fixed fun less => absurd less (by decide)
  obtain rfl := nothing.eq_nil
  exact List.append_cancel_right same ▸ references'

/-- Where more delimiters stand beside a text, more of its decimals can be rounded. -/
theorem mono (h : Rounds places after before s t) (before' after' : Option Char) (more : Delimits before → Delimits before')
    (more' : Delimits after → Delimits after') : Rounds places after' before' s t := by
  induction h generalizing before' with
  | nil => exact .nil
  | keep c _ ih => exact .keep c (ih _ id)
  | @round before m s t decimal opens closes _ ih =>
    have closes' : Delimits (s.head?.or after') := by
      cases s with
      | nil => exact more' closes
      | cons c s => exact closes
    have same : decimalText places before (s.head?.or after) m = decimalText places before' (s.head?.or after') m := by
      rw [decimalText, decimalText, if_pos ⟨opens, closes⟩, if_pos ⟨more opens, closes'⟩]
    rw [same]
    exact .round decimal (more opens) closes' (ih _ id)

/-! ## What stays -/

/-- Where no delimiter stands, no number is shortened. -/
theorem exists_kept {c : Char} (h : Rounds places after before (c :: s) t)
    (kept : ¬ Delimits before ∨ c.isDigit = false ∧ c ≠ '-') : ∃ t', t = c :: t' ∧ Rounds places after (some c) s t' := by
  generalize whole : c :: s = w at h
  cases h with
  | nil => cases whole
  | keep d later =>
    obtain ⟨rfl, rfl⟩ := List.cons.inj whole
    exact ⟨_, rfl, later⟩
  | round decimal opens =>
    rcases kept with none | ⟨noDigit, noMinus⟩
    · exact absurd opens none
    · obtain ⟨d, v, rfl⟩ := List.exists_cons_of_ne_nil decimal.nonempty
      obtain ⟨rfl, -⟩ := List.cons.inj whole
      rcases decimal.first c rfl with digit | minus
      · rw [noDigit] at digit
        cases digit
      · exact absurd minus noMinus

/-- A text without digits and signs stays. -/
theorem exists_keptText (h : Rounds places after before (u ++ s) t) (fixed : ∀ c ∈ u, c.isDigit = false ∧ c ≠ '-') :
    ∃ t', t = u ++ t' ∧ Rounds places after (u.getLast?.or before) s t' := by
  induction u generalizing before t with
  | nil => exact ⟨t, rfl, h⟩
  | cons c u ih =>
    obtain ⟨here, fixed⟩ := List.forall_mem_cons.mp fixed
    obtain ⟨t₁, rfl, later⟩ := h.exists_kept (.inr here)
    obtain ⟨t', rfl, rest⟩ := ih later fixed
    exact ⟨t', rfl, (getLast?_cons_or c u before).symm ▸ rest⟩

theorem eq_of_noDigit (h : Rounds places after before s t) (noDigit : ∀ c ∈ s, c.isDigit = false) : t = s := by
  induction h with
  | nil => rfl
  | keep c _ ih => rw [ih (List.forall_mem_cons.mp noDigit).2]
  | @round _ m s _ decimal =>
    obtain ⟨c, d, digit, -, inside⟩ := decimal.point
    have member : c ∈ m ++ s := List.mem_append_left s (inside.subset List.mem_cons_self)
    rw [noDigit c member] at digit
    cases digit

theorem mem (h : Rounds places after before s t) {c : Char} (member : c ∈ t) : c ∈ s ∨ isNumberPart c = true := by
  induction h with
  | nil => exact absurd member List.not_mem_nil
  | keep d _ ih =>
    rcases List.mem_cons.mp member with rfl | member
    · exact .inl List.mem_cons_self
    · exact (ih member).imp_left (List.mem_cons_of_mem d)
  | round decimal _ _ _ ih =>
    rcases List.mem_append.mp member with member | member
    · exact .inr ((isNumber_decimalText decimal).parts c member)
    · exact (ih member).imp_left (List.mem_append_right _)

theorem not_mem (h : Rounds places after before s t) {c : Char} (absent : c ∉ s) (other : isNumberPart c = false) : c ∉ t := by
  intro member
  rcases h.mem member with inside | part
  · exact absent inside
  · rw [other] at part
    cases part

/-- Nothing is nothing, and what is something stays something. -/
theorem eq_nil_iff (h : Rounds places after before s t) : t = [] ↔ s = [] := by
  cases h with
  | nil => rfl
  | keep => simp
  | round decimal => simp [(isNumber_decimalText decimal).nonempty, decimal.nonempty]

/-! ## Parts -/

/-- A part that ends before a character of no number is rounded by itself. -/
theorem exists_parts {c : Char} (h : Rounds places after before (u ++ c :: s) t) (noDigit : c.isDigit = false)
    (noPoint : c ≠ '.') :
    ∃ u' t', t = u' ++ t' ∧ Rounds places (some c) before u u' ∧ Rounds places after (u.getLast?.or before) (c :: s) t' := by
  generalize whole : u ++ c :: s = w at h
  induction h generalizing u with
  | nil => simp at whole
  | @keep before d s₀ t₀ later ih =>
    cases u with
    | nil =>
      obtain ⟨rfl, rfl⟩ := List.cons.inj whole
      exact ⟨[], _, rfl, .nil, .keep c later⟩
    | cons e u =>
      obtain ⟨rfl, same⟩ := List.cons.inj whole
      obtain ⟨u', t', rfl, part, rest⟩ := ih same
      exact ⟨e :: u', t', rfl, .keep e part, (getLast?_cons_or e u before).symm ▸ rest⟩
  | @round before m s₀ t₀ decimal opens closes later ih =>
    cases u with
    | nil =>
      refine ⟨[], _, rfl, .nil, ?_⟩
      rw [← List.nil_append (c :: s), whole]
      exact .round decimal opens closes later
    | cons e u =>
      obtain ⟨v, left, rfl⟩ := exists_of_append_eq whole.symm fun d head member => by
        obtain rfl := Option.some.inj head
        rcases decimal.rest _ member with digit | point
        · rw [noDigit] at digit
          cases digit
        · exact noPoint point
      obtain ⟨v', t', rfl, part, rest⟩ := ih rfl
      have beside : (v ++ c :: s).head?.or after = v.head?.or (some c) := by
        cases v <;> rfl
      refine ⟨_, t', (List.append_assoc _ _ _).symm, ?_, ?_⟩
      · rw [left, beside]
        exact .round decimal opens (beside ▸ closes) part
      · rw [left, List.getLast?_append, Option.or_assoc, decimal.getLast?_or]
        exact rest

/-- A part and the character after it. -/
theorem exists_part {c : Char} (h : Rounds places after before (u ++ c :: s) t) (noDigit : c.isDigit = false)
    (noPoint : c ≠ '.') (noMinus : c ≠ '-') :
    ∃ u' t', t = u' ++ c :: t' ∧ Rounds places (some c) before u u' ∧ Rounds places after (some c) s t' := by
  obtain ⟨u', t₁, rfl, part, later⟩ := h.exists_parts noDigit noPoint
  obtain ⟨t', rfl, rest⟩ := later.exists_kept (.inr ⟨noDigit, noMinus⟩)
  exact ⟨u', t', rfl, part, rest⟩

/-- The last character stays if no delimiter follows. -/
theorem dropLast (h : Rounds places after before s t) (none : ¬ Delimits after) :
    t.getLast? = s.getLast? ∧ Rounds places s.getLast? before s.dropLast t.dropLast := by
  induction h with
  | nil => exact ⟨rfl, .nil⟩
  | @keep before c s t later ih =>
    cases s with
    | nil =>
      obtain rfl := later.eq_nil_iff.mpr rfl
      exact ⟨rfl, .nil⟩
    | cons d s =>
      obtain ⟨e, v, rfl⟩ := List.exists_cons_of_ne_nil (mt later.eq_nil_iff.mp (List.cons_ne_nil d s))
      rw [List.getLast?_cons_cons, List.getLast?_cons_cons]
      exact ⟨ih.1, .keep c ih.2⟩
  | @round before m s t decimal opens closes later ih =>
    cases s with
    | nil => exact absurd closes none
    | cons d s =>
      have nonempty : t ≠ [] := mt later.eq_nil_iff.mp (List.cons_ne_nil d s)
      have ends {v w : Text} (some : w ≠ []) : (v ++ w).getLast? = w.getLast? := List.getLast?_append_of_ne_nil v some
      rw [ends nonempty, ends (List.cons_ne_nil d s), List.dropLast_append_of_ne_nil nonempty,
        List.dropLast_append_of_ne_nil (List.cons_ne_nil d s)]
      have beside : (d :: s).dropLast.head?.or (d :: s).getLast? = some d := by
        cases s <;> rfl
      refine ⟨ih.1, ?_⟩
      have round : Rounds places (d :: s).getLast? before (m ++ (d :: s).dropLast)
          (decimalText places before ((d :: s).dropLast.head?.or (d :: s).getLast?) m ++ t.dropLast) :=
        .round decimal opens (beside ▸ closes) ih.2
      rw [beside] at round
      exact round

end Rounds

theorem rounds_shortenDecimalsAfter (places : Nat) (before : Option Char) (s : Text) :
    Rounds places none before s (shortenDecimalsAfter places before s) := by
  induction before, s using shortenDecimalsAfter.induct with
  | case1 before =>
    rw [shortenDecimalsAfter]
    exact .nil
  | case2 before c s m rest found shorter ih =>
    obtain ⟨decimal, same⟩ := isDecimal_of_cutDecimal? found
    rw [shortenDecimalsAfter, found]
    simp only [shorter, if_true]
    rw [same]
    by_cases between : Delimits before ∧ Delimits rest.head?
    · have round : Rounds places none before (m ++ rest)
          (decimalText places before (rest.head?.or none) m ++ shortenDecimalsAfter places m.getLast? rest) :=
        .round decimal between.1 (by simpa using between.2) ih
      rwa [Option.or_none] at round
    · rw [decimalText, if_neg between]
      exact .append_left ((decimal.getLast?_or before).symm ▸ ih)
  | case3 before c s m rest found longer ih =>
    rw [shortenDecimalsAfter, found]
    simp only [longer, if_false]
    exact .keep c ih
  | case4 before c s missing ih =>
    rw [shortenDecimalsAfter, missing]
    exact .keep c ih

/-! ## Texts without decimals between delimiters -/

/-- No decimal stands between delimiters: `before` stands before the text, and its end is a delimiter. -/
def Undelimited (before : Option Char) (s : Text) : Prop :=
  ∀ u m v : Text, s = u ++ (m ++ v) → IsDecimal m → Delimits (u.getLast?.or before) → v.head?.all isNumberDelimiter = false

theorem undelimited_of_no_point {before : Option Char} {s : Text} (absent : '.' ∉ s) : Undelimited before s := by
  rintro u m v rfl decimal
  obtain ⟨c, d, -, -, inside⟩ := decimal.point
  have point : '.' ∈ m := inside.subset (by simp)
  exact absurd (List.mem_append_right u (List.mem_append_left v point)) absent

theorem Undelimited.mono {before before' : Option Char} {s : Text} (h : Undelimited before s)
    (less : Delimits before' → Delimits before) : Undelimited before' s := by
  intro u m v same decimal opens
  refine h u m v same decimal ?_
  cases last : u.getLast? with
  | none => exact less (by simpa [last] using opens)
  | some c => simpa [last] using opens

namespace Rounds

variable {places : Nat} {before after : Option Char} {s t u : Text}

theorem eq_of_undelimited (h : Rounds places after before s t) (undelimited : Undelimited before s) : t = s := by
  induction h with
  | nil => rfl
  | @keep before c s t _ ih =>
    rw [ih fun u m v same decimal opens => ?_]
    exact undelimited (c :: u) m v (by rw [same]; rfl) decimal ((getLast?_cons_or c u before).symm ▸ opens)
  | @round before m s t decimal opens closes _ _ =>
    have open_ := undelimited [] m s rfl decimal opens
    cases s with
    | nil => cases open_
    | cons c s =>
      have delimiter : isNumberDelimiter c = true := closes
      have none : isNumberDelimiter c = false := open_
      rw [delimiter] at none
      cases none

/-! ## What markup is told apart by -/

theorem closes_append_number {quote : Option Char} {m : Text} (mark : ∀ q ∈ quote, isNumberPart q = false)
    (parts : ∀ c ∈ m, isNumberPart c = true) : Closes quote (m ++ s) ↔ Closes quote s := by
  induction m with
  | nil => rfl
  | cons c m ih =>
    obtain ⟨part, parts⟩ := List.forall_mem_cons.mp parts
    have other {d : Char} (stop : isNumberPart d = false) : c ≠ d := by
      rintro rfl
      rw [stop] at part
      cases part
    have same : quoteAfter quote c = quote := by
      cases quote with
      | none => exact if_neg fun marks => marks.elim (other (by decide)) (other (by decide))
      | some q => exact if_neg (other (mark q rfl))
    rw [List.cons_append, Closes, same, ih parts]
    exact and_iff_right fun ends => other (by decide) ends.2

theorem closes (h : Rounds places after before s t) {quote : Option Char} (mark : ∀ q ∈ quote, isNumberPart q = false)
    (closes : Closes quote s) : Closes quote t := by
  induction h generalizing quote with
  | nil => exact closes
  | keep c _ ih =>
    refine ⟨closes.1, ih (fun q opened => ?_) closes.2⟩
    rcases quoteAfter_eq_some opened with (rfl | rfl) | before
    · decide
    · decide
    · exact mark q before
  | round decimal _ _ _ ih =>
    rw [closes_append_number mark decimal.isNumber.parts] at closes
    rw [closes_append_number mark (isNumber_decimalText decimal).parts]
    exact ih mark closes

theorem exists_cutTag (h : Rounds places after before s t) {inside rest : Text} (cut : cutTag none s = some (inside, rest)) :
    ∃ inside' rest', cutTag none t = some (inside', rest') ∧ Rounds places (some '>') before inside inside' ∧
      Rounds places after (some '>') rest rest' := by
  obtain ⟨rfl, closes⟩ := cutTag_eq_some_iff.mp cut
  obtain ⟨inside', rest', rfl, part, later⟩ := h.exists_part (by decide) (by decide) (by decide)
  exact ⟨inside', rest', cutTag_eq_some_iff.mpr ⟨rfl, part.closes (fun _ mark => nomatch mark) closes⟩, part, later⟩

theorem cutDeclaration (h : Rounds places after before s t) {depth : Nat} {rest rest' : Text}
    (cut : cutDeclaration depth (s ++ '>' :: rest) = some (s, rest)) :
    SvgEdit.cutDeclaration depth (t ++ '>' :: rest') = some (t, rest') := by
  induction h generalizing depth with
  | nil =>
    rw [List.nil_append, SvgEdit.cutDeclaration] at cut ⊢
    split at cut
    · next ends => rw [if_pos ends]
    · obtain ⟨⟨i, r⟩, -, same⟩ := Option.map_eq_some_iff.mp cut
      cases (Prod.mk.inj same).1
  | keep c _ ih =>
    rw [List.cons_append, SvgEdit.cutDeclaration] at cut ⊢
    split at cut
    · cases (Prod.mk.inj (Option.some.inj cut)).1
    · next going =>
      obtain ⟨⟨i, r⟩, inner, same⟩ := Option.map_eq_some_iff.mp cut
      obtain ⟨tail, rfl⟩ := Prod.mk.inj same
      obtain rfl := (List.cons.inj tail).2
      rw [if_neg going, ih inner]
      rfl
  | round decimal _ _ _ ih =>
    have flat {w : Text} (number : IsNumber w) : ∀ c ∈ w, c ≠ '<' ∧ c ≠ '>' := by
      intro c member
      have part := number.parts c member
      constructor <;> (rintro rfl; cases part)
    rw [List.append_assoc, cutDeclaration_of_flat (flat decimal.isNumber)] at cut
    rw [List.append_assoc, cutDeclaration_of_flat (flat (isNumber_decimalText decimal))]
    exact ih cut

theorem exists_cutDeclaration (h : Rounds places after before s t) {inside rest : Text}
    (cut : SvgEdit.cutDeclaration 0 s = some (inside, rest)) :
    ∃ inside' rest', SvgEdit.cutDeclaration 0 t = some (inside', rest') ∧ Rounds places (some '>') before inside inside' ∧
      Rounds places after (some '>') rest rest' := by
  obtain rfl := eq_append_of_cutDeclaration cut
  obtain ⟨inside', rest', rfl, part, later⟩ := h.exists_part (by decide) (by decide) (by decide)
  exact ⟨inside', rest', part.cutDeclaration cut, part, later⟩

/-- Up to a character of no number, a text is rounded by itself. -/
theorem span (h : Rounds places after before s t) {p : Char → Bool} (parts : ∀ c, isNumberPart c = true → p c = true) :
    Rounds places ((s.dropWhile p).head?.or after) before (s.takeWhile p) (t.takeWhile p) ∧
      ∃ last, Rounds places after last (s.dropWhile p) (t.dropWhile p) := by
  have all {u u' : Text} {stop start : Option Char} (part : Rounds places stop start u u') (inside : ∀ c ∈ u, p c = true) :
      ∀ c ∈ u', p c = true := fun c member => (part.mem member).elim (inside c) (parts c)
  have front : ∀ c ∈ s.takeWhile p, p c = true := fun c member => List.mem_takeWhile_imp member
  have whole : s.takeWhile p ++ s.dropWhile p = s := List.takeWhile_append_dropWhile
  cases rest : s.dropWhile p with
  | nil =>
    rw [rest, List.append_nil] at whole
    have inside := all h (whole ▸ front)
    rw [whole, List.takeWhile_eq_self_iff.mpr inside, List.dropWhile_eq_nil_iff.mpr inside]
    exact ⟨h, none, .nil⟩
  | cons c rest =>
    have stop : p c = false := Text.stops_dropWhile p s c (by rw [rest]; rfl)
    have other : isNumberPart c = false := by
      cases part : isNumberPart c with
      | false => rfl
      | true =>
        rw [parts c part] at stop
        cases stop
    have noDigit : c.isDigit = false := by
      cases digit : c.isDigit with
      | false => rfl
      | true =>
        rw [isNumberPart, isAlphanum_of_isDigit digit] at other
        cases other
    rw [rest] at whole
    rw [← whole] at h
    obtain ⟨u', t', rfl, part, later⟩ := h.exists_part noDigit (by rintro rfl; cases other) (by rintro rfl; cases other)
    have head : ∀ d ∈ (c :: t').head?, p d = false := fun d head => Option.some.inj head ▸ stop
    rw [Text.takeWhile_append_of_stop (all part front) head, Text.dropWhile_append_of_stop (all part front) head]
    exact ⟨part, none, .keep c later⟩

/-- Blanks at the beginning are none of a decimal. -/
theorem exists_dropWhile_isSpace (h : Rounds places after before s t) :
    ∃ last, Rounds places after last (s.dropWhile isSpace) (t.dropWhile isSpace) := by
  induction h with
  | nil => exact ⟨none, .nil⟩
  | @keep before c s t later ih =>
    cases space : isSpace c with
    | true =>
      rw [List.dropWhile_cons_of_pos space, List.dropWhile_cons_of_pos space]
      exact ih
    | false =>
      rw [List.dropWhile_cons_of_neg (by simp [space]), List.dropWhile_cons_of_neg (by simp [space])]
      exact ⟨before, .keep c later⟩
  | @round before m s t decimal opens closes later _ =>
    have stays {w v : Text} (number : IsNumber w) : (w ++ v).dropWhile isSpace = w ++ v := by
      obtain ⟨c, w, rfl⟩ := List.exists_cons_of_ne_nil number.nonempty
      have noSpace := isSpace_of_isNumberPart (number.parts c List.mem_cons_self)
      rw [List.cons_append, List.dropWhile_cons_of_neg (by simp [noSpace])]
    rw [stays decimal.isNumber, stays (isNumber_decimalText decimal)]
    exact ⟨before, .round decimal opens closes later⟩

/-! ## Marks -/

/-- A text that is found as it stands: no delimiter is in it, and it is not all of a number. -/
structure IsMark (mark : Text) : Prop where
  joined : ∀ c ∈ mark, isNumberDelimiter c = false
  other : ¬ ∀ c ∈ mark, isNumberPart c = true

/-- After what is no delimiter, all stays up to the next one. -/
theorem exists_joined (h : Rounds places after before (u ++ s) t) (none : ¬ Delimits before)
    (joined : ∀ c ∈ u, isNumberDelimiter c = false) : ∃ t', t = u ++ t' ∧ Rounds places after (u.getLast?.or before) s t' := by
  induction u generalizing before t with
  | nil => exact ⟨t, rfl, h⟩
  | cons c u ih =>
    obtain ⟨here, joined⟩ := List.forall_mem_cons.mp joined
    obtain ⟨t₁, rfl, later⟩ := h.exists_kept (.inl none)
    obtain ⟨t', rfl, rest⟩ := ih later (by simpa [Delimits] using here) joined
    exact ⟨t', rfl, (getLast?_cons_or c u before).symm ▸ rest⟩

/-- What stays up to the next delimiter was there. -/
theorem exists_of_joined (h : Rounds places after before s (u ++ t)) (none : ¬ Delimits before)
    (joined : ∀ c ∈ u, isNumberDelimiter c = false) : ∃ s', s = u ++ s' := by
  induction u generalizing before s with
  | nil => exact ⟨s, rfl⟩
  | cons c u ih =>
    obtain ⟨here, joined⟩ := List.forall_mem_cons.mp joined
    cases s with
    | nil => cases h.eq_nil_iff.mpr rfl
    | cons d s =>
      obtain ⟨t₁, same, later⟩ := h.exists_kept (.inl none)
      obtain ⟨rfl, rfl⟩ := List.cons.inj same
      obtain ⟨s', rfl⟩ := ih later (by simpa [Delimits] using here) joined
      exact ⟨s', rfl⟩

/-- No mark begins in a number that a delimiter follows. -/
theorem cut?_append_number {mark w : Text} (isMark : IsMark mark) (parts : ∀ c ∈ w, isNumberPart c = true)
    (stop : ∀ c ∈ s.head?, isNumberDelimiter c = true) :
    Text.cut? mark (w ++ s) = (Text.cut? mark s).map fun (before, rest) => (w ++ before, rest) := by
  induction w with
  | nil =>
    rw [List.nil_append]
    cases Text.cut? mark s <;> rfl
  | cons c w ih =>
    obtain ⟨part, later⟩ := List.forall_mem_cons.mp parts
    have missing : Text.dropPrefix? mark (c :: (w ++ s)) = none := by
      rw [Option.eq_none_iff_forall_ne_some]
      intro rest found
      have same : c :: w ++ s = mark ++ rest := Text.dropPrefix?_eq_some_iff.mp found
      rcases List.append_eq_append_iff.mp same with ⟨more, longer, back⟩ | ⟨more, shorter, -⟩
      · cases more with
        | nil =>
          rw [List.append_nil] at longer
          exact isMark.other (longer ▸ parts)
        | cons d more =>
          have delimiter := stop d (by rw [back]; rfl)
          rw [isMark.joined d (by rw [longer]; simp)] at delimiter
          cases delimiter
      · exact isMark.other fun d member => parts d (shorter ▸ List.mem_append_left more member)
    rw [List.cons_append, Text.cut?, missing]
    dsimp only
    rw [ih later]
    cases Text.cut? mark s <;> rfl

/-- A mark that does not begin with a character that stays does not begin there afterwards. -/
theorem dropPrefix?_kept {first c : Char} {mark : Text} (later : Rounds places after (some c) s t)
    (isMark : IsMark (first :: mark)) (missing : Text.dropPrefix? (first :: mark) (c :: s) = none) :
    Text.dropPrefix? (first :: mark) (c :: t) = none := by
  obtain ⟨here, joined⟩ := List.forall_mem_cons.mp isMark.joined
  rw [Option.eq_none_iff_forall_ne_some] at missing ⊢
  intro r found
  obtain ⟨rfl, rfl⟩ := List.cons.inj (Text.dropPrefix?_eq_some_iff.mp found)
  obtain ⟨s', rfl⟩ := later.exists_of_joined (by simpa [Delimits] using here) joined
  exact missing s' (Text.dropPrefix?_eq_some_iff.mpr rfl)

/-- A mark is found where it was found before. -/
theorem exists_cut? {first : Char} {mark : Text} (h : Rounds places after before s t) (isMark : IsMark (first :: mark))
    {body rest : Text} (cut : Text.cut? (first :: mark) s = some (body, rest)) :
    ∃ body' rest' last, Text.cut? (first :: mark) t = some (body', rest') ∧ Rounds places (some first) before body body' ∧
      Rounds places after last rest rest' := by
  induction h generalizing body with
  | nil => cases cut
  | @keep before c s t later ih =>
    rw [Text.cut?] at cut
    split at cut
    · next tail found =>
      obtain ⟨rfl, rfl⟩ := Prod.mk.inj (Option.some.inj cut)
      obtain ⟨rfl, rfl⟩ := List.cons.inj (Text.dropPrefix?_eq_some_iff.mp found)
      obtain ⟨here, joined⟩ := List.forall_mem_cons.mp isMark.joined
      obtain ⟨t', rfl, rest⟩ := later.exists_joined (by simpa [Delimits] using here) joined
      have found' : Text.dropPrefix? (c :: mark) (c :: (mark ++ t')) = some t' := Text.dropPrefix?_eq_some_iff.mpr rfl
      exact ⟨[], t', _, by rw [Text.cut?, found'], .nil, rest⟩
    · next missing =>
      obtain ⟨⟨b, r⟩, inner, same⟩ := Option.map_eq_some_iff.mp cut
      obtain ⟨rfl, rfl⟩ := Prod.mk.inj same
      obtain ⟨body', rest', last, cut', part, rest⟩ := ih inner
      refine ⟨c :: body', rest', last, ?_, .keep c part, rest⟩
      rw [Text.cut?, later.dropPrefix?_kept isMark missing]
      dsimp only
      rw [cut']
      rfl
  | @round before m s t decimal opens closes later ih =>
    cases s with
    | nil =>
      rw [cut?_append_number (s := []) isMark decimal.isNumber.parts (by simp)] at cut
      cases cut
    | cons d s =>
      have delimiter : isNumberDelimiter d = true := closes
      obtain ⟨t, rfl, -⟩ := later.exists_kept (.inl decimal.not_delimits_getLast?)
      have stop {w : Text} : ∀ c ∈ (d :: w).head?, isNumberDelimiter c = true := fun c head => Option.some.inj head ▸ delimiter
      rw [cut?_append_number isMark decimal.isNumber.parts stop] at cut
      obtain ⟨⟨b, r⟩, inner, same⟩ := Option.map_eq_some_iff.mp cut
      obtain ⟨rfl, rfl⟩ := Prod.mk.inj same
      obtain ⟨body', rest', last, cut', part, rest⟩ := ih inner
      have number : IsNumber (decimalText places before ((d :: s).head?.or after) m) := isNumber_decimalText decimal
      refine ⟨_, rest', last, by rw [cut?_append_number isMark number.parts stop, cut']; rfl, ?_, rest⟩
      have whole := Text.eq_append_of_cut? inner
      cases b with
      | nil =>
        obtain ⟨rfl, -⟩ := List.cons.inj whole
        rw [isMark.joined d List.mem_cons_self] at delimiter
        cases delimiter
      | cons e b =>
        obtain ⟨rfl, -⟩ := List.cons.inj whole
        exact .round decimal opens closes part

end Rounds

end SvgEdit
