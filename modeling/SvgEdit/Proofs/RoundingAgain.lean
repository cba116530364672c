import SvgEdit.Proofs.TrimmedDecimals

/-!
# Decimals shortened again

Decimals between delimiters are shortened independently of each other, and what is written for one is not
changed when it is shortened again, unless it vanishes. So decimals are shortened once and for all, also if
blanks are removed in between.
-/
namespace SvgEdit

open SvgEdit.Shrink

namespace Shrink

open Binary64

variable {places : Nat}

/-! ## Texts between delimiters -/

/-- The text stands between two delimiters. -/
def Between (m s : Text) : Prop :=
  ∃ u c d v, s = u ++ c :: (m ++ d :: v) ∧ isNumberDelimiter c = true ∧ isNumberDelimiter d = true

theorem IsExact.isNumber {m : Text} (h : IsExact m) : IsNumber m := (isDecimal_of_cutDecimal? h).1.isNumber

theorem IsExact.cutDecimal?_append {m rest : Text} (h : IsExact m) (stop : ∀ c ∈ rest.head?, c.isDigit = false) :
    cutDecimal? (m ++ rest) = some (m, rest) := by
  obtain ⟨d, proper, rfl⟩ := isExact_iff.mp h
  exact cutDecimal?_eq_some_iff.mpr ⟨d, proper, rfl, rfl, stop⟩

theorem isExact_of_cutDecimal? {s m rest : Text} (found : cutDecimal? s = some (m, rest)) : IsExact m := by
  obtain ⟨d, proper, rfl, -, -⟩ := cutDecimal?_eq_some_iff.mp found
  exact isExact_iff.mpr ⟨d, proper, rfl⟩

theorem isDigit_of_isNumberDelimiter {c : Char} (delimiter : isNumberDelimiter c = true) : c.isDigit = false := by
  by_contra digit
  have part := Binary64.isNumberPart_of_isDigit (Bool.of_not_eq_false digit)
  rw [isNumberDelimiter_of_isNumberPart part] at delimiter
  cases delimiter

theorem stops_of_isNumberDelimiter {c : Char} (delimiter : isNumberDelimiter c = true) (s : Text) :
    ∀ d ∈ (c :: s).head?, d.isDigit = false :=
  fun _ head => Option.some.inj head ▸ isDigit_of_isNumberDelimiter delimiter

theorem noDelimiter_of_isNumber {n : Text} (number : IsNumber n) : ∀ c ∈ n, isNumberDelimiter c = false :=
  fun c member => isNumberDelimiter_of_isNumberPart (number.parts c member)

variable {before : Option Char} {s m rest : Text}

theorem shortenDecimalsAfter_of_none {c : Char} (missing : cutDecimal? (c :: s) = none) :
    shortenDecimalsAfter places before (c :: s) = c :: shortenDecimalsAfter places (some c) s := by
  rw [shortenDecimalsAfter, missing]

theorem shortenDecimalsAfter_of_some (found : cutDecimal? s = some (m, rest)) :
    shortenDecimalsAfter places before s =
      decimalText places before rest.head? m ++ shortenDecimalsAfter places m.getLast? rest := by
  obtain ⟨decimal, rfl⟩ := isDecimal_of_cutDecimal? found
  obtain ⟨c, u, rfl⟩ := List.exists_cons_of_ne_nil decimal.nonempty
  have shorter : rest.length ≤ (u ++ rest).length := by simp
  rw [List.cons_append] at found ⊢
  rw [shortenDecimalsAfter, found]
  exact if_pos shorter

theorem length_of_cutDecimal? (found : cutDecimal? s = some (m, rest)) : rest.length < s.length := by
  obtain ⟨decimal, rfl⟩ := isDecimal_of_cutDecimal? found
  have positive := List.length_pos_iff.mpr decimal.nonempty
  rw [List.length_append]
  omega

/-- No decimal begins with a delimiter. -/
theorem cutDecimal?_of_delimiter {c : Char} (delimiter : isNumberDelimiter c = true) (s : Text) :
    cutDecimal? (c :: s) = none := by
  by_contra found
  obtain ⟨⟨m, rest⟩, found⟩ := Option.ne_none_iff_exists'.mp found
  obtain ⟨decimal, same⟩ := isDecimal_of_cutDecimal? found
  obtain ⟨b, m, rfl⟩ := List.exists_cons_of_ne_nil decimal.nonempty
  obtain ⟨rfl, -⟩ := List.cons.inj same
  rw [noDelimiter_of_isNumber decimal.isNumber c List.mem_cons_self] at delimiter
  cases delimiter

theorem shortenDecimalsAfter_of_delimiter {c : Char} (delimiter : isNumberDelimiter c = true) (before : Option Char)
    (s : Text) : shortenDecimalsAfter places before (c :: s) = c :: shortenDecimalsAfter places (some c) s :=
  shortenDecimalsAfter_of_none (cutDecimal?_of_delimiter delimiter s)

/-- What is written for a decimal between two delimiters. -/
theorem shortenDecimalsAfter_between {c d : Char} {x : Binary64} (exact : IsExact m) (read : read? m = some x)
    (opens : isNumberDelimiter c = true) (closes : isNumberDelimiter d = true) (v : Text) :
    shortenDecimalsAfter places (some c) (m ++ d :: v) = roundedText places x ++ shortenDecimals places (d :: v) := by
  have cut := exact.cutDecimal?_append (stops_of_isNumberDelimiter closes v)
  have written : decimalText places (some c) (d :: v).head? m = roundedText places x := by
    rw [decimalText, if_pos ⟨opens, closes⟩, read]
  rw [shortenDecimalsAfter_of_some cut, written, shortenDecimals, shortenDecimalsAfter_of_delimiter closes,
    shortenDecimalsAfter_of_delimiter closes]

/-! ## Where decimals are shortened -/

theorem decimalText_induction (rel : Text → Text → Prop) (refl : ∀ s, rel s s) {u : Text}
    (written : ∀ x, Between m (u ++ (m ++ rest)) → read? m = some x → rel m (roundedText places x)) :
    rel m (decimalText places u.getLast? rest.head? m) := by
  unfold decimalText
  split
  · next between =>
    obtain ⟨opens, closes⟩ := between
    obtain ⟨u, c, rfl⟩ := (List.eq_nil_or_concat u).resolve_left (by rintro rfl; cases opens)
    obtain ⟨d, rest, rfl⟩ := List.exists_cons_of_ne_nil (l := rest) (by rintro rfl; cases closes)
    rw [List.concat_eq_append] at written opens
    rw [List.getLast?_concat] at opens
    split
    · next x read => exact written x ⟨u, c, d, rest, by simp, opens, closes⟩ read
    · exact refl m
  · exact refl m

/-- What is true of each decimal between delimiters and of what is written for it is true of the whole texts. -/
theorem shortenDecimalsAfter_induction (rel : Text → Text → Prop) (refl : ∀ s, rel s s)
    (append : ∀ {s t u v}, rel s t → rel u v → rel (s ++ u) (t ++ v)) (u s : Text)
    (written : ∀ m x, IsExact m → Between m (u ++ s) → read? m = some x → rel m (roundedText places x)) :
    rel s (shortenDecimalsAfter places u.getLast? s) := by
  induction size : s.length using Nat.strong_induction_on generalizing u s with
  | _ n ih =>
    cases s with
    | nil =>
      rw [shortenDecimalsAfter]
      exact refl []
    | cons c s =>
      cases found : cutDecimal? (c :: s) with
      | none =>
        have later := ih s.length (by rw [← size]; exact Nat.lt_succ_self _) (u ++ [c]) s (by simpa using written) rfl
        rw [List.getLast?_concat] at later
        rw [shortenDecimalsAfter_of_none found]
        exact append (refl [c]) later
      | some pair =>
        obtain ⟨m, rest⟩ := pair
        obtain ⟨decimal, same⟩ := isDecimal_of_cutDecimal? found
        have here : rel m (decimalText places u.getLast? rest.head? m) :=
          decimalText_induction rel refl fun x between => written m x (isExact_of_cutDecimal? found) (same ▸ between)
        have later := ih rest.length (by rw [← size]; exact length_of_cutDecimal? found) (u ++ m) rest
          (by rw [List.append_assoc, ← same]; exact written) rfl
        rw [List.getLast?_append, decimal.getLast?_or] at later
        rw [shortenDecimalsAfter_of_some found, same]
        exact append here later

/-- A text stays if its decimals between delimiters are written as they are. -/
theorem shortenDecimalsAfter_eq_self (u s : Text)
    (written : ∀ m x, IsExact m → Between m (u ++ s) → read? m = some x → roundedText places x = m) :
    shortenDecimalsAfter places u.getLast? s = s := by
  refine (shortenDecimalsAfter_induction Eq (fun _ => rfl) (fun left right => ?_) u s ?_).symm
  · rw [left, right]
  · exact fun m x exact between read => (written m x exact between read).symm

/-- What follows a delimiter does not matter to a decimal before it. -/
theorem exists_cutDecimal?_append {c : Char} {u : Text} (delimiter : isNumberDelimiter c = true)
    (found : cutDecimal? (u ++ c :: s) = some (m, rest)) :
    ∃ v, u = m ++ v ∧ rest = v ++ c :: s ∧ ∀ s', cutDecimal? (u ++ c :: s') = some (m, v ++ c :: s') := by
  have run := noDelimiter_of_isNumber (isExact_of_cutDecimal? found).isNumber
  obtain ⟨d, proper, rfl, same, stop⟩ := cutDecimal?_eq_some_iff.mp found
  obtain ⟨v, rfl, rfl⟩ : ∃ v, u = d.text ++ v ∧ rest = v ++ c :: s := by
    rcases List.append_eq_append_iff.mp same with ⟨a, left, right⟩ | ⟨v, left, right⟩
    · cases a with
      | nil => exact ⟨[], by simpa using left.symm, by simpa using right.symm⟩
      | cons e a =>
        obtain ⟨rfl, -⟩ := List.cons.inj right
        rw [run c (by rw [left]; simp)] at delimiter
        cases delimiter
    · exact ⟨v, left, right⟩
  refine ⟨v, rfl, rfl, fun s' => cutDecimal?_eq_some_iff.mpr ⟨d, proper, rfl, by simp, ?_⟩⟩
  cases v <;> exact stop

/-- Decimals are shortened on both sides of a delimiter independently. -/
theorem shortenDecimalsAfter_append {c : Char} (delimiter : isNumberDelimiter c = true) (before : Option Char)
    (u s : Text) :
    shortenDecimalsAfter places before (u ++ c :: s) =
      shortenDecimalsAfter places before (u ++ [c]) ++ shortenDecimalsAfter places (some c) s := by
  induction size : u.length using Nat.strong_induction_on generalizing u before with
  | _ n ih =>
    cases found : cutDecimal? (u ++ c :: s) with
    | none =>
      have missing : cutDecimal? (u ++ [c]) = none := by
        by_contra found'
        obtain ⟨⟨m, rest⟩, found'⟩ := Option.ne_none_iff_exists'.mp found'
        obtain ⟨v, -, -, cut⟩ := exists_cutDecimal?_append delimiter found'
        rw [cut s] at found
        cases found
      cases u with
      | nil =>
        rw [List.nil_append] at found missing
        rw [List.nil_append, List.nil_append, shortenDecimalsAfter_of_none found, shortenDecimalsAfter_of_none missing,
          shortenDecimalsAfter, List.singleton_append]
      | cons b u =>
        rw [List.cons_append] at found missing
        have later := ih u.length (by rw [← size]; exact Nat.lt_succ_self _) (some b) u rfl
        rw [List.cons_append, List.cons_append, shortenDecimalsAfter_of_none found,
          shortenDecimalsAfter_of_none missing, later, List.cons_append]
    | some pair =>
      obtain ⟨m, rest⟩ := pair
      have nonempty := (isDecimal_of_cutDecimal? found).1.nonempty
      obtain ⟨v, rfl, rfl, cut⟩ := exists_cutDecimal?_append delimiter found
      have shorter : v.length < n := by
        rw [← size, List.length_append]
        exact Nat.lt_add_of_pos_left (List.length_pos_iff.mpr nonempty)
      have head : (v ++ [c]).head? = (v ++ c :: s).head? := by cases v <;> rfl
      rw [shortenDecimalsAfter_of_some found, shortenDecimalsAfter_of_some (cut []), ih v.length shorter _ v rfl, head,
        List.append_assoc]

/-! ## Texts with rounded decimals -/

/-- A text that stays or becomes shorter. -/
def Dwindles (s t : Text) : Prop := t = s ∨ t.length < s.length

theorem Dwindles.append {s t u v : Text} (left : Dwindles s t) (right : Dwindles u v) : Dwindles (s ++ u) (t ++ v) := by
  unfold Dwindles at left right ⊢
  simp only [List.length_append]
  rcases left with rfl | shorter
  · rcases right with rfl | shorter
    · exact .inl rfl
    · exact .inr (by omega)
  · rcases right with rfl | shorter'
    · exact .inr (by omega)
    · exact .inr (by omega)

theorem Dwindles.length_le {s t : Text} (h : Dwindles s t) : t.length ≤ s.length :=
  h.elim (fun same => same ▸ le_refl _) le_of_lt

/-- A decimal between delimiters is read as less than the last place. -/
def Vanishing (places : Nat) (s : Text) : Prop :=
  ∃ m x, IsExact m ∧ Between m s ∧ read? m = some x ∧ x.magnitudeLt (tenthPower places) = true

/-- The decimals between delimiters are written as they are rounded, unless they vanish. -/
def Rounded (places : Nat) (s : Text) : Prop :=
  ∀ m x, IsExact m → Between m s → read? m = some x →
    roundedText places x = m ∨ x.magnitudeLt (tenthPower places) = true ∧ 22 < places

namespace Rounded

variable {places : Nat} {s : Text}

theorem many_of_vanishing (rounded : Rounded places s) (vanishing : Vanishing places s) : 22 < places := by
  obtain ⟨m, x, exact, between, read, small⟩ := vanishing
  refine (rounded m x exact between read).elim (fun same => ?_) And.right
  rw [roundedText, if_pos small] at same
  exact absurd (same ▸ exact.point) (by decide)

theorem left {u v : Text} (rounded : Rounded places (u ++ v)) : Rounded places u := by
  rintro m x exact ⟨u, c, d, w, rfl, opens, closes⟩ read
  exact rounded m x exact ⟨u, c, d, w ++ v, by simp, opens, closes⟩ read

theorem dwindles {u v : Text} (rounded : Rounded places (u ++ v)) :
    Dwindles v (shortenDecimalsAfter places u.getLast? v) := by
  refine shortenDecimalsAfter_induction Dwindles (fun _ => .inl rfl) Dwindles.append u v
    fun m x exact between read => (rounded m x exact between read).imp_right fun small => ?_
  rw [roundedText, if_pos small.1]
  exact exact.length

theorem eq_of_not_vanishing (rounded : Rounded places s) (lasting : ¬ Vanishing places s) :
    shortenDecimals places s = s := by
  refine shortenDecimalsAfter_eq_self [] s fun m x exact between read => ?_
  exact (rounded m x exact between read).resolve_right fun small => lasting ⟨m, x, exact, between, read, small.1⟩

/-- Shortening leaves the text exactly if no decimal vanishes. -/
theorem shortenDecimals_eq_self_iff (rounded : Rounded places s) :
    shortenDecimals places s = s ↔ ¬ Vanishing places s := by
  refine ⟨?_, rounded.eq_of_not_vanishing⟩
  rintro same ⟨m, x, exact, ⟨u, c, d, v, rfl, opens, closes⟩, read, small⟩
  have start : u ++ c :: (m ++ d :: v) = (u ++ [c]) ++ (m ++ d :: v) := by simp
  have middle : (u ++ [c]) ++ (m ++ d :: v) = (u ++ [c] ++ m) ++ d :: v := by simp
  rw [start] at rounded
  have left : Dwindles (u ++ [c]) (shortenDecimalsAfter places none (u ++ [c])) := rounded.left.dwindles (u := [])
  rw [middle] at rounded
  have right := rounded.dwindles
  rw [shortenDecimalsAfter_of_delimiter closes] at right
  have written : roundedText places x = ['0'] := if_pos small
  rw [shortenDecimals, shortenDecimalsAfter_append opens, shortenDecimalsAfter_between exact read opens closes, written,
    shortenDecimals, shortenDecimalsAfter_of_delimiter closes] at same
  have lengths := congrArg List.length same
  have long := exact.length
  simp only [List.length_append, List.length_cons, List.length_nil] at lengths
  have left := left.length_le
  have right := right.length_le
  simp only [List.length_append, List.length_cons, List.length_nil] at left right
  omega

end Rounded

/-! ## What shortening leaves between delimiters -/

/-- Where a run without delimiters ends. -/
theorem eq_of_runs {u v r r' : Text} {c d : Char} (same : u ++ c :: r = v ++ d :: r')
    (run : ∀ e ∈ u, isNumberDelimiter e = false) (run' : ∀ e ∈ v, isNumberDelimiter e = false)
    (opens : isNumberDelimiter c = true) (opens' : isNumberDelimiter d = true) : u = v ∧ c :: r = d :: r' := by
  have stop {c : Char} {r : Text} (opens : isNumberDelimiter c = true) :
      ∀ e ∈ (c :: r).head?, (!isNumberDelimiter e) = false := fun e head => Option.some.inj head ▸ by simp [opens]
  have left := Text.takeWhile_append_of_stop (p := (!isNumberDelimiter ·)) (by simpa using run) (stop (r := r) opens)
  have right :=
    Text.takeWhile_append_of_stop (p := (!isNumberDelimiter ·)) (by simpa using run') (stop (r := r') opens')
  have both : u = v := by rw [← left, ← right, same]
  subst both
  exact ⟨rfl, List.append_cancel_left same⟩

/-- Where a delimiter stands after shortening, it stood before. -/
theorem exists_after_delimiter {before : Option Char} {s u v : Text} {c : Char}
    (same : shortenDecimalsAfter places before s = u ++ c :: v) (delimiter : isNumberDelimiter c = true) :
    ∃ s', v = shortenDecimalsAfter places (some c) s' := by
  induction size : s.length using Nat.strong_induction_on generalizing s u before with
  | _ n ih =>
    cases s with
    | nil =>
      rw [shortenDecimalsAfter] at same
      exact absurd same (by simp)
    | cons b s =>
      cases found : cutDecimal? (b :: s) with
      | none =>
        rw [shortenDecimalsAfter_of_none found] at same
        cases u with
        | nil =>
          obtain ⟨rfl, rfl⟩ := List.cons.inj same
          exact ⟨s, rfl⟩
        | cons e u =>
          exact ih s.length (by rw [← size]; exact Nat.lt_succ_self _) (List.cons.inj same).2 rfl
      | some pair =>
        obtain ⟨m, rest⟩ := pair
        have number : IsNumber (decimalText places before rest.head? m) :=
          isNumber_decimalText (isDecimal_of_cutDecimal? found).1
        rw [shortenDecimalsAfter_of_some found] at same
        have shorter : rest.length < n := by
          rw [← size]
          exact length_of_cutDecimal? found
        rcases List.append_eq_append_iff.mp same with ⟨a, left, right⟩ | ⟨a, left, right⟩
        · exact ih rest.length shorter right rfl
        · cases a with
          | nil => exact ih rest.length shorter (u := []) right.symm rfl
          | cons e a =>
            obtain ⟨rfl, rfl⟩ := List.cons.inj right
            rw [noDelimiter_of_isNumber number c (by rw [left]; simp)] at delimiter
            cases delimiter

/-- Nothing stands between delimiters in a run that only ends with one. -/
theorem not_between_of_run {e : Char} {u : Text} (run : ∀ c ∈ u, isNumberDelimiter c = false) :
    ¬ Between m (u ++ [e]) := by
  rintro ⟨u₁, c, d, v, same, opens, -⟩
  obtain ⟨w, z, last⟩ := (List.eq_nil_or_concat (m ++ d :: v)).resolve_left (by simp)
  rw [last, List.concat_eq_append, ← List.cons_append, ← List.append_assoc] at same
  rw [run c (by rw [List.append_inj_left' same rfl]; simp)] at opens
  cases opens

/-- What stands between the delimiters around a run is the run. -/
theorem Between.eq_of_run {c e : Char} {u : Text} (between : Between m (c :: (u ++ [e]))) (number : IsNumber m)
    (run : ∀ c ∈ u, isNumberDelimiter c = false) (closes : isNumberDelimiter e = true) : m = u := by
  obtain ⟨u₁, c', d, v, same, opens', closes'⟩ := between
  cases u₁ with
  | nil =>
    obtain ⟨-, same⟩ := List.cons.inj same
    exact (eq_of_runs same run (noDelimiter_of_isNumber number) closes closes').1.symm
  | cons b u₁ => exact absurd ⟨u₁, c', d, v, (List.cons.inj same).2, opens', closes'⟩ (not_between_of_run run)

/-- A run between two delimiters is shortened as a whole. -/
theorem exists_shortened_run (places : Nat) {c e : Char} {u : Text} (opens : isNumberDelimiter c = true)
    (run : ∀ c ∈ u, isNumberDelimiter c = false) (closes : isNumberDelimiter e = true) (s : Text) :
    ∃ u', shortenDecimalsAfter places (some c) (u ++ e :: s) = u' ++ e :: shortenDecimalsAfter places (some e) s ∧
      (∀ c ∈ u', isNumberDelimiter c = false) ∧
      (IsExact u' → ∃ m x, IsExact m ∧ read? m = some x ∧ u' = roundedText places x) := by
  by_cases exact : IsExact u
  · obtain ⟨x, read⟩ := exact.exists_read?
    refine ⟨roundedText places x, ?_, noDelimiter_of_isNumber (isNumber_roundedText places x),
      fun _ => ⟨u, x, exact, read, rfl⟩⟩
    rw [shortenDecimalsAfter_between exact read opens closes, shortenDecimals, shortenDecimalsAfter_of_delimiter closes]
  · have kept : shortenDecimalsAfter places (some c) (u ++ [e]) = u ++ [e] :=
      shortenDecimalsAfter_eq_self [c] (u ++ [e])
        fun m x exact' between _ => absurd (between.eq_of_run exact'.isNumber run closes ▸ exact') exact
    rw [shortenDecimalsAfter_append closes, kept, List.append_assoc, List.singleton_append]
    exact ⟨u, rfl, run, fun exact' => absurd exact' exact⟩

/-- No delimiters come up. -/
theorem mem_of_mem_shortenDecimalsAfter {c d : Char} (delimiter : isNumberDelimiter d = true)
    (member : d ∈ shortenDecimalsAfter places (some c) s) : d ∈ s := by
  refine shortenDecimalsAfter_induction (fun s t => d ∈ t → d ∈ s) (fun _ => id) (fun left right member => ?_) [c] s
    (fun m x _ _ _ member => ?_) member
  · exact List.mem_append.mpr ((List.mem_append.mp member).imp left right)
  · rw [noDelimiter_of_isNumber (isNumber_roundedText places x) d member] at delimiter
    cases delimiter

/-- A decimal that stands between delimiters after shortening is written for a number that was read. -/
theorem exists_of_shortened {c d : Char} {v : Text} (exact : IsExact m) (opens : isNumberDelimiter c = true)
    (closes : isNumberDelimiter d = true) (same : shortenDecimalsAfter places (some c) s = m ++ d :: v) :
    ∃ m' x, IsExact m' ∧ read? m' = some x ∧ m = roundedText places x := by
  obtain ⟨u, e, s, rfl, run, closes'⟩ : ∃ u e w, s = u ++ e :: w ∧ (∀ c ∈ u, isNumberDelimiter c = false) ∧
      isNumberDelimiter e = true := by
    have member : d ∈ s := mem_of_mem_shortenDecimalsAfter closes (by rw [same]; simp)
    obtain ⟨e, found⟩ := Option.isSome_iff_exists.mp (List.find?_isSome.mpr ⟨d, member, closes⟩)
    obtain ⟨closes', u, w, whole, run⟩ := List.find?_eq_some_iff_append.mp found
    exact ⟨u, e, w, whole, by simpa using run, closes'⟩
  obtain ⟨u', shortened, run', written⟩ := exists_shortened_run places opens run closes' s
  rw [shortened] at same
  obtain ⟨rfl, -⟩ := eq_of_runs same run' (noDelimiter_of_isNumber exact.isNumber) closes' closes
  exact written exact

end Shrink

/-! ## Blanks removed in between -/

theorem isNumberDelimiter_of_isBlank {c : Char} (blank : Text.isBlank c = true) : isNumberDelimiter c = true := by
  simp [isNumberDelimiter, blank]

theorem isBlank_of_mem_blankStops : ∀ c ∈ blankStops, Text.isBlank c = false := by decide

theorem isNumberPart_of_mem_blankStops : ∀ c ∈ blankStops, isNumberPart c = false := by decide

namespace Thinned

variable {s : Text}

/-- A character before which blanks can go stays. -/
theorem eq_of_stop {c a : Char} {t : Text} (h : Thinned (c :: s) (a :: t)) (stop : c ∈ blankStops) : a = c := by
  have noRun {blanks u : Text} (run : BlankRun blanks) (same : c :: s = blanks ++ u) : False := by
    have blank := run.isBlank_head same
    rw [isBlank_of_mem_blankStops c stop] at blank
    cases blank
  generalize whole : c :: s = w, whole' : a :: t = w' at h
  cases h with
  | nil => cases whole
  | keep d => exact (List.cons.inj whole').1.trans (List.cons.inj whole).1.symm
  | blank run => exact (noRun run whole).elim
  | noBlank run => exact (noRun run whole).elim
  | opening run => exact (List.cons.inj whole').1.trans (List.cons.inj whole).1.symm

/-- Where a delimiter stands without the blanks, one stood before. -/
theorem exists_delimiter {t u v : Text} {c : Char} (h : Thinned s t) (same : t = u ++ c :: v)
    (delimiter : isNumberDelimiter c = true) :
    ∃ u' d v', s = u' ++ d :: v' ∧ isNumberDelimiter d = true ∧ Thinned v' v := by
  induction h generalizing u with
  | nil => simp at same
  | keep b later ih =>
    cases u with
    | nil =>
      obtain ⟨rfl, rfl⟩ := List.cons.inj same
      exact ⟨[], b, _, rfl, delimiter, later⟩
    | cons e u =>
      obtain ⟨u', d, v', rfl, rest⟩ := ih (List.cons.inj same).2
      exact ⟨b :: u', d, v', rfl, rest⟩
  | @blank blanks s t run later ih =>
    cases u with
    | nil =>
      obtain ⟨front, b, rfl⟩ := (List.eq_nil_or_concat blanks).resolve_left run.nonempty
      obtain ⟨-, rfl⟩ := List.cons.inj same
      have blank := run.blank b (by simp)
      exact ⟨front, b, s, by simp, isNumberDelimiter_of_isBlank blank, later⟩
    | cons e u =>
      obtain ⟨u', d, v', rfl, rest⟩ := ih (List.cons.inj same).2
      exact ⟨blanks ++ u', d, v', by rw [List.append_assoc], rest⟩
  | @noBlank blanks s t run stop later ih =>
    obtain ⟨u', d, v', rfl, rest⟩ := ih same
    exact ⟨blanks ++ u', d, v', by rw [List.append_assoc], rest⟩
  | @opening blanks s t run later ih =>
    cases u with
    | nil =>
      obtain ⟨rfl, -⟩ := List.cons.inj same
      exact absurd delimiter (by decide)
    | cons e u =>
      obtain ⟨u', d, v', rfl, rest⟩ := ih (List.cons.inj same).2
      exact ⟨'<' :: (blanks ++ u'), d, v', by simp, rest⟩

/-- A character stays, or blanks go before it or become it, or blanks go after the beginning of a tag. -/
theorem head_cases {a : Char} {t : Text} (h : Thinned s (a :: t)) :
    (∃ s', s = a :: s' ∧ Thinned s' t) ∨
      (∃ b s', s = b :: s' ∧ Text.isBlank b = true ∧ (a = ' ' ∨ a ∈ blankStops)) ∨ a = '<' := by
  have run_cons {blanks : Text} (run : BlankRun blanks) (u : Text) :
      ∃ b s', blanks ++ u = b :: s' ∧ Text.isBlank b = true := by
    obtain ⟨b, blanks, rfl⟩ := List.exists_cons_of_ne_nil run.nonempty
    exact ⟨b, blanks ++ u, rfl, run.blank b List.mem_cons_self⟩
  generalize whole : a :: t = w at h
  cases h with
  | nil => cases whole
  | keep d later =>
    obtain ⟨rfl, rfl⟩ := List.cons.inj whole
    exact .inl ⟨_, rfl, later⟩
  | blank run later =>
    obtain ⟨b, s', same, blank⟩ := run_cons run _
    exact .inr (.inl ⟨b, s', same, blank, .inl (List.cons.inj whole).1⟩)
  | @noBlank blanks s _ run stop later =>
    obtain ⟨b, s', same, blank⟩ := run_cons run s
    obtain ⟨c, head, listed⟩ := stop
    obtain ⟨s₁, rfl⟩ := List.head?_eq_some_iff.mp head
    rw [← whole] at later
    have kept := later.eq_of_stop listed
    exact .inr (.inl ⟨b, s', same, blank, .inr (kept ▸ listed)⟩)
  | opening run later => exact .inr (.inr (List.cons.inj whole).1)

/-- A number that stands before a delimiter without the blanks stood before one. -/
theorem exists_number {m v : Text} {c : Char} (parts : ∀ c ∈ m, isNumberPart c = true) (h : Thinned s (m ++ c :: v))
    (delimiter : isNumberDelimiter c = true) : ∃ d v', s = m ++ d :: v' ∧ isNumberDelimiter d = true := by
  induction m generalizing s with
  | nil =>
    rcases h.head_cases with ⟨s', rfl, -⟩ | ⟨b, s', rfl, blank, -⟩ | rfl
    · exact ⟨c, s', rfl, delimiter⟩
    · exact ⟨b, s', rfl, isNumberDelimiter_of_isBlank blank⟩
    · exact absurd delimiter (by decide)
  | cons a m ih =>
    obtain ⟨part, parts⟩ := List.forall_mem_cons.mp parts
    rcases h.head_cases with ⟨s', rfl, later⟩ | ⟨b, s', rfl, -, rfl | listed⟩ | rfl
    · obtain ⟨d, v', rfl, stands⟩ := ih parts later
      exact ⟨d, v', rfl, stands⟩
    · exact absurd part (by decide)
    · rw [isNumberPart_of_mem_blankStops a listed] at part
      cases part
    · exact absurd part (by decide)

end Thinned

namespace Shrink

open Binary64

variable {s m : Text}

/-- A decimal that stands between delimiters without the blanks stood between delimiters. -/
theorem Between.of_thinned {t : Text} (h : Thinned s t) (number : IsNumber m) (between : Between m t) :
    Between m s := by
  obtain ⟨u, c, d, v, same, opens, closes⟩ := between
  obtain ⟨u', c', w, rfl, opens', later⟩ := h.exists_delimiter same opens
  obtain ⟨d', v', rfl, closes'⟩ := later.exists_number number.parts closes
  exact ⟨u', c', d', v', rfl, opens', closes'⟩

/-- After decimals are shortened and blanks removed, the decimals are rounded. -/
theorem rounded_removeBlanks (places : Nat) (s : Text) : Rounded places (removeBlanks (shortenDecimals places s)) := by
  intro m x exact between read
  obtain ⟨m', x', exact', read', rfl⟩ : ∃ m' x', IsExact m' ∧ read? m' = some x' ∧ m = roundedText places x' := by
    refine @removeBlanks_induction (shortenDecimals places s) (fun t => Between m t → _)
      (fun s t thinned stood between => ?_) (fun between => ?_) between
    · exact stood (between.of_thinned thinned exact.isNumber)
    · obtain ⟨u, c, d, v, same, opens, closes⟩ := between
      obtain ⟨s', same'⟩ := exists_after_delimiter same opens
      exact exists_of_shortened exact opens closes same'.symm
  obtain ⟨y, again, alike⟩ := roundedText_again read' exact' exact
  obtain rfl := Option.some.inj (again.symm.trans read)
  exact alike

end Shrink
end SvgEdit
