import SvgEdit.Proofs.DecimalLengths
import SvgEdit.Proofs.ShrinkingAgain

/-!
# Bytes that are saved

No pass but the one that takes styles apart adds bytes to a text, as long as each decimal that is written
anew has room for what is written. Decimals of few digits and those with places enough have room.
-/
namespace SvgEdit

open SvgEdit.Binary64

/-! ## Sizes -/

namespace Text

theorem size_le_of_sublist {s t : Text} (h : s.Sublist t) : size s ≤ size t := by
  induction h with
  | slnil => exact le_refl _
  | cons c _ ih =>
    rw [size_cons]
    exact ih.trans (Nat.le_add_left _ _)
  | cons_cons c _ ih =>
    rw [size_cons, size_cons]
    exact Nat.add_le_add_left ih _

theorem size_pos {s : Text} (nonempty : s ≠ []) : 0 < size s := by
  obtain ⟨c, s, rfl⟩ := List.exists_cons_of_ne_nil nonempty
  rw [size_cons]
  exact Nat.add_pos_left c.utf8Size_pos _

end Text

theorem Thinned.size_le {s t : Text} (h : Thinned s t) : Text.size t ≤ Text.size s := by
  induction h with
  | nil => exact le_refl _
  | keep c _ ih =>
    rw [Text.size_cons, Text.size_cons]
    exact Nat.add_le_add_left ih _
  | blank run _ ih =>
    rw [Text.size_cons, Text.size_append]
    exact Nat.add_le_add (Text.size_pos run.nonempty) ih
  | noBlank _ _ _ ih =>
    rw [Text.size_append]
    exact ih.trans (Nat.le_add_left _ _)
  | opening _ _ ih =>
    rw [Text.size_cons, Text.size_cons, Text.size_append]
    exact Nat.add_le_add_left (ih.trans (Nat.le_add_left _ _)) _

/-- A literal has as many bytes as characters. -/
theorem IsLiteral.size_eq {t : Text} (h : IsLiteral t) : Text.size t = t.length := by
  have parts := h.parts
  clear h
  induction t with
  | nil => rfl
  | cons c t ih =>
    obtain ⟨part, parts⟩ := List.forall_mem_cons.mp parts
    have byte : c.utf8Size = 1 := by
      rcases part with digit | rfl | rfl
      · simp only [Char.isDigit, Bool.and_eq_true, decide_eq_true_eq] at digit
        rw [Char.utf8Size_eq_one_iff]
        exact UInt32.le_trans digit.2 (by decide)
      · rfl
      · rfl
    rw [Text.size_cons, ih parts, byte, List.length_cons, Nat.add_comm]

theorem DecimalParts.Proper.isLiteral {d : DecimalParts} (proper : d.Proper) : IsLiteral d.text :=
  ⟨d.negative, d.whole, d.fraction, proper.whole, proper.digits, proper.digits', by
    rw [if_neg proper.fraction, text, unsigned, List.append_assoc]⟩

namespace Shrink

variable {places : Nat} {s m r : Text}

theorem size_removeBlanks_le (s : Text) : Text.size (removeBlanks s) ≤ Text.size s :=
  @removeBlanks_induction s (fun t => Text.size t ≤ Text.size s) (fun _ _ thinned le => thinned.size_le.trans le)
    (le_refl _)

/-- If all decimals between delimiters fit, they are written in as many bytes at most. -/
theorem size_shortenDecimals_le (fit : ∀ d : DecimalParts, d.Proper → Between d.text s → d.Fits places) :
    Text.size (shortenDecimals places s) ≤ Text.size s := by
  refine shortenDecimalsAfter_induction (fun s t => Text.size t ≤ Text.size s) (fun _ => le_refl _)
    (fun left right => ?_) [] s fun m x exact between read => ?_
  · rw [Text.size_append, Text.size_append]
    exact Nat.add_le_add left right
  · obtain ⟨d, proper, rfl⟩ := isExact_iff.mp exact
    obtain rfl : d.value = x := Option.some.inj ((read?_text proper).symm.trans read)
    obtain ⟨literal, shorter⟩ := proper.fits_iff.mpr (fit d proper between)
    rwa [literal.size_eq, proper.isLiteral.size_eq]

/-! ## Decimals and what is written for them -/

/-- One text stands in the shortened text where the other one stood between delimiters. -/
def Replaced (places : Nat) (s m r : Text) : Prop :=
  ∃ u c d v, s = u ++ c :: (m ++ d :: v) ∧ isNumberDelimiter c = true ∧ isNumberDelimiter d = true ∧
    shortenDecimals places s = shortenDecimals places (u ++ [c]) ++ (r ++ shortenDecimals places (d :: v))

theorem replaced_iff {d : DecimalParts} (proper : d.Proper) :
    Replaced places s d.text r ↔ Between d.text s ∧ r = roundedText places d.value := by
  have written {c e : Char} (opens : isNumberDelimiter c = true) (closes : isNumberDelimiter e = true) (u v : Text) :
      shortenDecimals places (u ++ c :: (d.text ++ e :: v)) =
        shortenDecimals places (u ++ [c]) ++ (roundedText places d.value ++ shortenDecimals places (e :: v)) := by
    rw [shortenDecimals, shortenDecimalsAfter_append opens,
      shortenDecimalsAfter_between (isExact_iff.mpr ⟨d, proper, rfl⟩) (read?_text proper) opens closes]
    rfl
  constructor
  · rintro ⟨u, c, e, v, rfl, opens, closes, same⟩
    rw [written opens closes] at same
    exact ⟨⟨u, c, e, v, rfl, opens, closes⟩, (List.append_cancel_right (List.append_cancel_left same)).symm⟩
  · rintro ⟨⟨u, c, e, v, rfl, opens, closes⟩, rfl⟩
    exact ⟨u, c, e, v, rfl, opens, closes, written opens closes u v⟩

/-! ## Levels -/

/-- The text in which the decimals are shortened. -/
def beforeDecimals (o : Options) (s : Text) : Text :=
  stylesLifted o (groupsCollapsed o
    (removeEditorNamespaces (removeEmptyAttributes (removeMetadata (removeComments s)))))

variable {o : Options}

theorem beforeDecimals_sublist (mild : o.level ≠ .aggressive) (s : Text) : (beforeDecimals o s).Sublist s := by
  rw [beforeDecimals, stylesLifted, if_neg mild]
  exact (groupsCollapsed_sublist o _).trans ((remove_sublist takes_editorNamespaces.takesOff _).trans
    ((remove_sublist takes_emptyAttributes.takesOff _).trans ((remove_sublist takes_metadata.takesOff _).trans
      (remove_sublist takes_comments.takesOff s))))

/-- What was saved is not negative if what is written for the decimals is not longer. -/
theorem saved_nonneg (mild : o.level ≠ .aggressive)
    (shorter : Text.size (decimalsShortened o (beforeDecimals o s)) ≤ Text.size (beforeDecimals o s)) :
    0 ≤ (optimize o s).saved := by
  have blanks := size_removeBlanks_le (decimalsShortened o (beforeDecimals o s))
  have passes := Text.size_le_of_sublist (beforeDecimals_sublist mild s)
  have size : (optimize o s).sizeAfter ≤ Text.size s := by
    rw [Report.sizeAfter, optimize, shrink_eq]
    exact blanks.trans (shorter.trans passes)
  rw [Report.saved]
  exact Int.sub_nonneg_of_le (Int.ofNat_le.mpr size)

/--
The decimals between delimiters are written anew, and only they are. What is written is a literal that is not
longer exactly if the decimal fits. Where all decimals fit, no level adds bytes unless it takes styles apart.
-/
theorem replaced_not_longer_iff_fits (o : Options) (s : Text) :
    (∀ places (d : DecimalParts), d.Proper → Between d.text s → ∃ r, Replaced places s d.text r) ∧
    (∀ places, (∀ d : DecimalParts, d.Proper → ¬ Between d.text s) → shortenDecimals places s = s) ∧
    (∀ places (d : DecimalParts) r, d.Proper → Replaced places s d.text r →
      (IsLiteral r ∧ r.length ≤ d.text.length ↔ d.Fits places)) ∧
    (∀ places (d : DecimalParts), d.Proper → d.magnitude ≤ 308 →
      places ≤ d.fraction.length ∨ d.magnitude + places ≤ 15 → d.Fits places) ∧
    (o.level = .light → 0 ≤ (optimize o s).saved) ∧
    (o.level = .standard →
      (∀ places ∈ o.places, ∀ d : DecimalParts, d.Proper → Between d.text (beforeDecimals o s) → d.Fits places) →
        0 ≤ (optimize o s).saved) := by
  refine ⟨fun places d proper between => ⟨_, (replaced_iff proper).mpr ⟨between, rfl⟩⟩,
    fun places none => shortenDecimalsAfter_eq_self [] s fun m x exact between read => ?_,
    fun places d r proper replaced => ?_, fun places d proper => proper.fits, fun light => ?_, fun standard fit => ?_⟩
  · obtain ⟨d, proper, rfl⟩ := isExact_iff.mp exact
    exact absurd between (none d proper)
  · obtain ⟨-, rfl⟩ := (replaced_iff proper).mp replaced
    exact proper.fits_iff
  · refine saved_nonneg (fun aggressive => ?_) ?_
    · rw [light] at aggressive
      cases aggressive
    · rw [decimalsShortened, if_pos light]
  · refine saved_nonneg (fun aggressive => ?_) ?_
    · rw [standard] at aggressive
      cases aggressive
    · rw [decimalsShortened, if_neg (by rw [standard]; decide)]
      cases known : o.places with
      | none => exact le_refl _
      | some places => exact size_shortenDecimals_le (fit places known)

/-- A number of few digits becomes no longer, and nothing is lost at the standard level. -/
theorem replaced_not_longer_iff_fits_offset :
    let s : Text := "<svg x=\"1.50\"/>".toList
    (∃ r, Replaced 3 s "1.50".toList r ∧ IsLiteral r ∧ r.length ≤ 4) ∧ 0 ≤ (optimize {} s).saved := by
  intro s
  obtain ⟨replaced, -, shorter, fits, -, saved⟩ := replaced_not_longer_iff_fits {} s
  have proper : DecimalParts.Proper ⟨false, ['1'], ['5', '0']⟩ := ⟨by decide, by decide, by decide, by decide⟩
  have between : Between "1.50".toList s :=
    ⟨"<svg x=".toList, '"', '"', "/>".toList, by decide, by decide, by decide⟩
  constructor
  · obtain ⟨r, written⟩ := replaced 3 _ proper between
    exact ⟨r, written, (shorter 3 _ r proper written).mpr (fits 3 _ proper (by decide) (.inr (by decide)))⟩
  · refine saved rfl fun places known d proper between => ?_
    obtain rfl : 3 = places := Option.some.inj known
    have same : beforeDecimals {} s = s := by decide +kernel
    obtain ⟨u, c, e, v, whole, -, -⟩ := between
    have length : s.length = u.length + (d.text.length + (v.length + 1) + 1) := by
      rw [← same, whole]
      simp only [List.length_append, List.length_cons]
    have digits : d.text.length = (signText d.negative).length + (d.whole.length + (d.fraction.length + 1)) := by
      simp only [DecimalParts.text, DecimalParts.unsigned, List.length_append, List.length_cons]
    have few := proper.magnitude_le
    have fraction := List.length_pos_iff.mpr proper.fraction
    have all : s.length = 15 := by decide
    exact fits 3 d proper (by omega) (.inr (by omega))

/-- A decimal of fifteen digits is not exact as it is read, and its last places show. -/
theorem replaced_by_longer :
    let s : Text := "<svg x=\"99999999999999.1\"/>".toList
    Replaced 3 s "99999999999999.1".toList "99999999999999.094".toList ∧
      (optimize { level := .standard } s).document = "<svg x=\"99999999999999.094\"/>".toList ∧
        (optimize { level := .standard } s).saved = -2 := by
  refine ⟨⟨"<svg x=".toList, '"', '"', "/>".toList, ?_, ?_, ?_, ?_⟩, ?_, ?_⟩
  all_goals decide +kernel

end Shrink
end SvgEdit
