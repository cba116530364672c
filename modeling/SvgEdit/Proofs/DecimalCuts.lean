import SvgEdit.Proofs.DecimalLengths
import SvgEdit.Proofs.RoundingAgain

/-!
# Texts cut at their decimals

From left to right a text falls into decimals, each as long as it can be, and the gaps between them, and it does
so in one way only. Shortening goes along this cut: the gaps stay, a decimal stays that lacks a delimiter on one
side, and for each other one its fixed-point form is written, without the zeros at the end.
-/
namespace SvgEdit

open SvgEdit.Shrink SvgEdit.Binary64

/-! ## Cuts -/

/-- No decimal begins in the first text where the second one follows it. -/
def NoDecimalBegins (u v : Text) : Prop :=
  ∀ w, w <:+ u → w ≠ [] → ∀ d : DecimalParts, d.Proper → ¬ d.text <+: w ++ v

/-- No decimal that begins where this one does goes on beyond it. -/
def DecimalParts.IsLongest (d : DecimalParts) (rest : Text) : Prop :=
  ∀ e : DecimalParts, e.Proper → e.text <+: d.text ++ rest → e.text.length ≤ d.text.length

/-- A text in parts: decimals, a gap before each of them and one at the end. -/
inductive DecimalCut
  | last (gap : Text)
  | next (gap : Text) (d : DecimalParts) (later : DecimalCut)

namespace DecimalCut

def text : DecimalCut → Text
  | last gap => gap
  | next gap d later => gap ++ (d.text ++ later.text)

def decimals : DecimalCut → List DecimalParts
  | last _ => []
  | next _ d later => d :: later.decimals

/-- Each decimal is the first one that begins in what is left of the text, and as long as it can be. -/
def IsLeftmost : DecimalCut → Prop
  | last gap => NoDecimalBegins gap []
  | next gap d later =>
    d.Proper ∧ NoDecimalBegins gap (d.text ++ later.text) ∧ d.IsLongest later.text ∧ later.IsLeftmost

end DecimalCut

/-! ## Decimals at the beginning of a text -/

variable {d e : DecimalParts} {s u v rest : Text}

theorem exists_cutDecimal?_of_prefix (proper : d.Proper) (starts : d.text <+: s) :
    ∃ e rest, cutDecimal? s = some (DecimalParts.text e, rest) ∧ d.text.length ≤ e.text.length := by
  obtain ⟨t, rfl⟩ := starts
  -- The digits that follow belong to the decimal as well.
  let longer : DecimalParts := { d with fraction := d.fraction ++ t.takeWhile Char.isDigit }
  have text : longer.text = d.text ++ t.takeWhile Char.isDigit := by
    simp [longer, DecimalParts.text, DecimalParts.unsigned]
  have proper' : longer.Proper := by
    refine ⟨proper.whole, List.append_ne_nil_of_left_ne_nil proper.fraction _, proper.digits, ?_⟩
    exact List.forall_mem_append.mpr ⟨proper.digits', fun c member => List.mem_takeWhile_imp member⟩
  refine ⟨longer, t.dropWhile Char.isDigit, ?_, ?_⟩
  · refine cutDecimal?_eq_some_iff.mpr ⟨longer, proper', rfl, ?_, Text.stops_dropWhile Char.isDigit t⟩
    rw [text, List.append_assoc, List.takeWhile_append_dropWhile]
  · rw [text, List.length_append]
    exact Nat.le_add_right _ _

theorem cutDecimal?_eq_none_iff : cutDecimal? s = none ↔ ∀ d : DecimalParts, d.Proper → ¬ d.text <+: s := by
  constructor
  · intro missing d proper starts
    obtain ⟨e, rest, found, -⟩ := exists_cutDecimal?_of_prefix proper starts
    rw [missing] at found
    cases found
  · intro none
    by_contra found
    obtain ⟨⟨m, rest⟩, found⟩ := Option.ne_none_iff_exists'.mp found
    obtain ⟨d, proper, rfl, rfl, -⟩ := cutDecimal?_eq_some_iff.mp found
    exact none d proper (List.prefix_append _ _)

theorem cutDecimal?_eq_some_iff_isLongest (proper : d.Proper) :
    cutDecimal? (d.text ++ rest) = some (d.text, rest) ↔ d.IsLongest rest := by
  constructor
  · intro found e proper' starts
    obtain ⟨f, rest', found', longer⟩ := exists_cutDecimal?_of_prefix proper' starts
    obtain ⟨same, -⟩ := Prod.mk.inj (Option.some.inj (found.symm.trans found'))
    rwa [same]
  · intro longest
    obtain ⟨e, rest', found, longer⟩ := exists_cutDecimal?_of_prefix proper (List.prefix_append d.text rest)
    obtain ⟨e', proper', text, same, -⟩ := cutDecimal?_eq_some_iff.mp found
    have shorter := longest e' proper' (text ▸ ⟨rest', same.symm⟩)
    rw [← text] at shorter
    obtain ⟨text', rest''⟩ := List.append_inj same (Nat.le_antisymm longer shorter)
    rw [found, ← text', ← rest'']

/-- A decimal has one sign, and one point among its digits. -/
theorem DecimalParts.Proper.eq_of_text (proper : d.Proper) (proper' : e.Proper) (same : d.text = e.text) : d = e := by
  have first {d e : DecimalParts} (proper : d.Proper) : d.unsigned ≠ '-' :: e.unsigned := by
    obtain ⟨c, s, unsigned, digit⟩ := proper.exists_unsigned
    rw [unsigned]
    intro same
    obtain ⟨rfl, -⟩ := List.cons.inj same
    cases digit
  have point (t : Text) : ∀ c ∈ ('.' :: t).head?, c.isDigit = false := fun c head => Option.some.inj head ▸ by decide
  obtain ⟨negative, whole, fraction⟩ := d
  obtain ⟨negative', whole', fraction'⟩ := e
  obtain ⟨rfl, unsigned⟩ : negative = negative' ∧ whole ++ '.' :: fraction = whole' ++ '.' :: fraction' := by
    cases negative with
    | false =>
      cases negative' with
      | false => exact ⟨rfl, same⟩
      | true => exact absurd same (first proper)
    | true =>
      cases negative' with
      | false => exact absurd same.symm (first proper')
      | true => exact ⟨rfl, (List.cons.inj same).2⟩
  have wholes := congrArg (List.takeWhile Char.isDigit) unsigned
  rw [Text.takeWhile_append_of_stop proper.digits (point _), Text.takeWhile_append_of_stop proper'.digits (point _)] at wholes
  subst wholes
  rw [(List.cons.inj (List.append_cancel_left unsigned)).2]

theorem noDecimalBegins_nil : NoDecimalBegins [] v := fun _ ends nonempty => absurd (List.suffix_nil.mp ends) nonempty

theorem noDecimalBegins_cons_iff {c : Char} :
    NoDecimalBegins (c :: u) v ↔ cutDecimal? (c :: (u ++ v)) = none ∧ NoDecimalBegins u v := by
  rw [cutDecimal?_eq_none_iff]
  constructor
  · intro none
    exact ⟨none (c :: u) (List.suffix_refl _) (List.cons_ne_nil c u),
      fun w ends => none w (ends.trans (List.suffix_cons c u))⟩
  · rintro ⟨here, later⟩ w ends nonempty
    rcases List.suffix_cons_iff.mp ends with rfl | ends
    · exact here
    · exact later w ends nonempty

instance : Decidable d.Proper :=
  decidable_of_iff (d.whole ≠ [] ∧ d.fraction ≠ [] ∧ (∀ c ∈ d.whole, c.isDigit = true) ∧ ∀ c ∈ d.fraction, c.isDigit = true)
    ⟨fun ⟨whole, fraction, digits, digits'⟩ => ⟨whole, fraction, digits, digits'⟩,
      fun h => ⟨h.whole, h.fraction, h.digits, h.digits'⟩⟩

/-- At each place of the gap a decimal is looked for. -/
instance decidableNoDecimalBegins (v : Text) : ∀ u : Text, Decidable (NoDecimalBegins u v)
  | [] => isTrue noDecimalBegins_nil
  | _ :: u =>
    haveI := decidableNoDecimalBegins v u
    decidable_of_iff _ noDecimalBegins_cons_iff.symm

theorem DecimalCut.isLeftmost_next_iff {gap : Text} {later : DecimalCut} :
    (DecimalCut.next gap d later).IsLeftmost ↔ d.Proper ∧ NoDecimalBegins gap (d.text ++ later.text) ∧
      cutDecimal? (d.text ++ later.text) = some (d.text, later.text) ∧ later.IsLeftmost := by
  rw [IsLeftmost]
  exact and_congr_right fun proper => and_congr_right fun _ =>
    and_congr_left fun _ => (cutDecimal?_eq_some_iff_isLongest proper).symm

instance DecimalCut.decidableIsLeftmost : DecidablePred IsLeftmost
  | .last gap => decidableNoDecimalBegins [] gap
  | .next _ _ later =>
    haveI := decidableIsLeftmost later
    decidable_of_iff _ isLeftmost_next_iff.symm

/-! ## There is one cut -/

namespace DecimalCut

/-- The cut with one character more before its first gap. -/
def prepend (c : Char) : DecimalCut → DecimalCut
  | last gap => last (c :: gap)
  | next gap d later => next (c :: gap) d later

theorem text_prepend (c : Char) (k : DecimalCut) : (k.prepend c).text = c :: k.text := by cases k <;> rfl

theorem IsLeftmost.prepend {c : Char} {k : DecimalCut} (h : k.IsLeftmost) (missing : cutDecimal? (c :: k.text) = none) :
    (k.prepend c).IsLeftmost := by
  cases k with
  | last gap => exact noDecimalBegins_cons_iff.mpr ⟨by rwa [List.append_nil], h⟩
  | next gap d later => exact ⟨h.1, noDecimalBegins_cons_iff.mpr ⟨missing, h.2.1⟩, h.2.2⟩

theorem exists_isLeftmost (s : Text) : ∃ k : DecimalCut, k.text = s ∧ k.IsLeftmost := by
  induction size : s.length using Nat.strong_induction_on generalizing s with
  | _ n ih =>
    cases s with
    | nil => exact ⟨.last [], rfl, noDecimalBegins_nil⟩
    | cons c s =>
      cases found : cutDecimal? (c :: s) with
      | none =>
        obtain ⟨k, rfl, leftmost⟩ := ih s.length (by rw [← size]; exact Nat.lt_succ_self _) s rfl
        exact ⟨k.prepend c, k.text_prepend c, leftmost.prepend found⟩
      | some pair =>
        obtain ⟨m, rest⟩ := pair
        obtain ⟨k, rfl, leftmost⟩ := ih rest.length (by rw [← size]; exact length_of_cutDecimal? found) rest rfl
        obtain ⟨d, proper, rfl, same, -⟩ := cutDecimal?_eq_some_iff.mp found
        rw [same] at found
        exact ⟨.next [] d k, same.symm, proper, noDecimalBegins_nil,
          (cutDecimal?_eq_some_iff_isLongest proper).mp found, leftmost⟩

end DecimalCut

/-- A gap does not go beyond the place where a decimal begins. -/
theorem NoDecimalBegins.length_le {u' v' : Text} (none : NoDecimalBegins u v) (same : u ++ v = u' ++ v')
    (proper : d.Proper) (starts : d.text <+: v') : u.length ≤ u'.length := by
  by_contra longer
  rcases List.append_eq_append_iff.mp same with ⟨w, rfl, -⟩ | ⟨w, rfl, rfl⟩
  · rw [List.length_append] at longer
    omega
  · refine none w (List.suffix_append u' w) ?_ d proper starts
    rintro rfl
    exact longer (by rw [List.append_nil])

theorem DecimalParts.Proper.length_pos (proper : d.Proper) : 0 < d.text.length :=
  List.length_pos_iff.mpr proper.isDecimal.nonempty

namespace DecimalCut

/-- No decimal is left in a text without one. -/
theorem text_ne_of_noDecimalBegins {gap : Text} (none : NoDecimalBegins gap []) (proper : d.Proper) (u : Text)
    (later : DecimalCut) : gap ≠ (next u d later).text := by
  intro same
  have short := none.length_le (by rw [List.append_nil]; exact same) proper (List.prefix_append _ _)
  have lengths := congrArg List.length same
  have positive := proper.length_pos
  rw [text, List.length_append, List.length_append] at lengths
  omega

theorem IsLeftmost.unique {k k' : DecimalCut} (h : k.IsLeftmost) (h' : k'.IsLeftmost) (same : k.text = k'.text) :
    k = k' := by
  induction k generalizing k' with
  | last gap =>
    cases k' with
    | last gap' => exact congrArg last same
    | next u d later => exact absurd same (text_ne_of_noDecimalBegins h h'.1 u later)
  | next gap d later ih =>
    obtain ⟨proper, none, longest, leftmost⟩ := h
    cases k' with
    | last gap' => exact absurd same.symm (text_ne_of_noDecimalBegins h' proper gap later)
    | next gap' d' later' =>
      obtain ⟨proper', none', longest', leftmost'⟩ := h'
      obtain ⟨rfl, rest⟩ := List.append_inj same <| Nat.le_antisymm
        (none.length_le same proper' (List.prefix_append _ _))
        (none'.length_le same.symm proper (List.prefix_append _ _))
      have shorter : d'.text.length ≤ d.text.length := longest d' proper' (rest ▸ List.prefix_append _ _)
      have shorter' : d.text.length ≤ d'.text.length := longest' d proper (rest ▸ List.prefix_append _ _)
      obtain ⟨text, rest⟩ := List.append_inj rest (Nat.le_antisymm shorter' shorter)
      rw [proper.eq_of_text proper' text, ih leftmost leftmost' rest]

end DecimalCut

/-! ## What shortening makes of a cut -/

/-- The sign and the digits of a number's fixed-point form without the zeros at the end of its places. -/
structure FixedTrimmed (places : Nat) (x : Binary64) (negative : Bool) (whole shown : Text) : Prop where
  nonempty : whole ≠ []
  digits : ∀ c ∈ whole, c.isDigit = true
  digits' : ∀ c ∈ shown, c.isDigit = true
  few : shown.length ≤ places
  last : shown.getLast? ≠ some '0'
  fixed : x.fixed places = signText negative ++ whole ++
    if places = 0 then [] else '.' :: (shown ++ List.replicate (places - shown.length) '0')

/-- What is written for a decimal between delimiters. -/
def DecimalParts.ShortenedTo (places : Nat) (d : DecimalParts) (t : Text) : Prop :=
  if d.value.magnitudeLt (tenthPower places) then t = ['0']
  else ∃ whole shown, FixedTrimmed places d.value d.negative whole shown ∧
    t = signText d.negative ++ whole ++ if shown = [] then [] else '.' :: shown

namespace DecimalCut

/-- The second text is that of the cut with the decimals between delimiters shortened, `before` standing before it. -/
inductive Shortens (places : Nat) : (before : Option Char) → DecimalCut → Text → Prop
  | last {before : Option Char} {gap : Text} : Shortens places before (.last gap) gap
  | keep {before : Option Char} {gap t : Text} {d : DecimalParts} {later : DecimalCut}
      (lacking : ¬ Delimits (gap.getLast?.or before) ∨ ¬ Delimits later.text.head?)
      (rest : Shortens places d.text.getLast? later t) : Shortens places before (.next gap d later) (gap ++ (d.text ++ t))
  | shorten {before : Option Char} {gap r t : Text} {d : DecimalParts} {later : DecimalCut}
      (opens : Delimits (gap.getLast?.or before)) (closes : Delimits later.text.head?) (written : d.ShortenedTo places r)
      (rest : Shortens places d.text.getLast? later t) : Shortens places before (.next gap d later) (gap ++ (r ++ t))

end DecimalCut

/-- A decimal with 308 digits before the point at most is finite, and so a number is written for it. -/
theorem DecimalParts.Proper.shortenedTo {places : Nat} (proper : d.Proper) (few : d.whole.length ≤ 308) :
    d.ShortenedTo places (roundedText places d.value) := by
  have digits := digitsValue_lt (List.forall_mem_append.mpr ⟨proper.digits, proper.digits'⟩)
  rw [List.length_append] at digits
  rw [DecimalParts.ShortenedTo]
  split
  · next small => rw [roundedText, if_pos small]
  · next great =>
    obtain ⟨steps, finite, -⟩ := (ofDecimal_cases d.negative d.coefficient d.fraction.length).resolve_left
      (ofDecimal_ne_infinite few digits)
    rw [← DecimalParts.value] at finite
    obtain ⟨whole, shown, trimmed, fixed⟩ := exists_fixed_trimmed places d.negative steps
    rw [← finite] at fixed
    refine ⟨whole, shown, ⟨trimmed.nonempty, trimmed.digits, trimmed.digits', trimmed.few, ?_, fixed⟩,
      roundedText_of_fixed (Bool.of_not_eq_true great) trimmed fixed⟩
    exact fun zero => absurd (trimmed.last '0' zero) (by decide)

namespace NoDecimalBegins

theorem shortenDecimalsAfter {places : Nat} (none : NoDecimalBegins u v) (before : Option Char) :
    Shrink.shortenDecimalsAfter places before (u ++ v) =
      u ++ Shrink.shortenDecimalsAfter places (u.getLast?.or before) v := by
  induction u generalizing before with
  | nil => rfl
  | cons c u ih =>
    obtain ⟨missing, later⟩ := noDecimalBegins_cons_iff.mp none
    rw [List.cons_append, shortenDecimalsAfter_of_none missing, ih later, getLast?_cons_or]
    rfl

end NoDecimalBegins

theorem DecimalCut.IsLeftmost.shortens {places : Nat} {k : DecimalCut} (h : k.IsLeftmost)
    (few : ∀ d ∈ k.decimals, d.whole.length ≤ 308) (before : Option Char) :
    k.Shortens places before (shortenDecimalsAfter places before k.text) := by
  induction k generalizing before with
  | last gap =>
    have copied : shortenDecimalsAfter places before (gap ++ []) = gap ++ [] := by
      rw [NoDecimalBegins.shortenDecimalsAfter h before, shortenDecimalsAfter]
    rw [List.append_nil] at copied
    rw [text, copied]
    exact .last
  | next gap d later ih =>
    obtain ⟨proper, none, longest, leftmost⟩ := h
    obtain ⟨here, few⟩ := List.forall_mem_cons.mp few
    have rest := ih leftmost few d.text.getLast?
    rw [text, none.shortenDecimalsAfter,
      shortenDecimalsAfter_of_some ((cutDecimal?_eq_some_iff_isLongest proper).mpr longest)]
    by_cases between : Delimits (gap.getLast?.or before) ∧ Delimits later.text.head?
    · have written : decimalText places (gap.getLast?.or before) later.text.head? d.text = roundedText places d.value := by
        rw [decimalText, if_pos between, read?_text proper]
        rfl
      rw [written]
      exact .shorten between.1 between.2 (proper.shortenedTo here) rest
    · rw [decimalText, if_neg between]
      exact .keep (not_and_or.mp between) rest

/--
Shortening goes along the one cut of the text at its decimals. Gaps and decimals without delimiters around them
stay, and for the others `0` or a decimal without zeros at the end of its places is written, as long as no
decimal has more than 300 digits before the point.
-/
theorem shortenDecimals_along_cut (places : Nat) (s : Text) :
    ∃ k : DecimalCut, (k.text = s ∧ k.IsLeftmost) ∧ (∀ k' : DecimalCut, k'.text = s → k'.IsLeftmost → k' = k) ∧
      ((∀ d ∈ k.decimals, d.whole.length ≤ 300) → k.Shortens places none (shortenDecimals places s)) := by
  obtain ⟨k, rfl, leftmost⟩ := DecimalCut.exists_isLeftmost s
  refine ⟨k, ⟨rfl, leftmost⟩, fun k' same leftmost' => leftmost'.unique leftmost same, fun few => ?_⟩
  exact leftmost.shortens (fun d member => (few d member).trans (by decide)) none

/-- The third decimal lacks a delimiter before it. -/
theorem shortenDecimals_along_cut_path :
    ∃ k : DecimalCut, (k.text = "M 1.50,2.222 L3.333 -0.001;".toList ∧ k.IsLeftmost) ∧
      k.decimals.map DecimalParts.text = ["1.50".toList, "2.222".toList, "3.333".toList, "-0.001".toList] ∧
      (∀ d ∈ k.decimals, d.whole.length ≤ 300) ∧ k.Shortens 1 none "M 1.5,2.2 L3.333 0;".toList := by
  obtain ⟨k, ⟨text, leftmost⟩, unique, shortens⟩ := shortenDecimals_along_cut 1 "M 1.50,2.222 L3.333 -0.001;".toList
  have parts : .next ['M', ' '] ⟨false, ['1'], ['5', '0']⟩ (.next [','] ⟨false, ['2'], ['2', '2', '2']⟩
      (.next [' ', 'L'] ⟨false, ['3'], ['3', '3', '3']⟩ (.next [' '] ⟨true, ['0'], ['0', '0', '1']⟩ (.last [';'])))) = k :=
    unique _ (by decide) (by decide +kernel)
  have few : ∀ d ∈ k.decimals, d.whole.length ≤ 300 := by
    rw [← parts]
    decide
  have written : shortenDecimals 1 "M 1.50,2.222 L3.333 -0.001;".toList = "M 1.5,2.2 L3.333 0;".toList := by decide +kernel
  refine ⟨k, ⟨text, leftmost⟩, ?_, few, written ▸ shortens few⟩
  rw [← parts]
  decide

end SvgEdit
