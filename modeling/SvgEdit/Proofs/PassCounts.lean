import SvgEdit.Proofs.CondensingPasses
import SvgEdit.Proofs.EditorNamespaces
import SvgEdit.Proofs.StyleLifting
import SvgEdit.Shrink.Groups

/-!
# Characters that passes take away

A pass that removes something takes a character away that belongs to what it looks for: the `<` of markup,
the `=` of an attribute, the `:` of a declaration. So a pass that leaves as many of these characters as
there were has changed nothing.
-/
namespace SvgEdit

/-! ## Substitutions -/

namespace Text

variable {step : Step} {c : Char}

/-- What is written for a match has the character less often, unless it is the match itself. -/
def Spends (c : Char) (step : Step) : Prop :=
  ∀ s new rest, step s = some (new, rest) → ∃ old, s = old ++ rest ∧ (new = old ∨ new.count c < old.count c)

/-- What is written for a match does not have the character more often. -/
def Keeps (c : Char) (step : Step) : Prop :=
  ∀ s new rest, step s = some (new, rest) → ∃ old, s = old ++ rest ∧ new.count c ≤ old.count c

theorem Spends.substitute (spends : Spends c step) (s : Text) :
    substitute step s = s ∨ (substitute step s).count c < s.count c := by
  refine substitute_induction (fun s t => t = s ∨ t.count c < s.count c) (.inl rfl) (fun d s t later => ?_)
    (fun d s new rest t found later => ?_) s
  · refine later.imp (fun same => by rw [same]) fun fewer => ?_
    rw [List.count_cons, List.count_cons]
    exact Nat.add_lt_add_right fewer _
  · obtain ⟨old, same, spent⟩ := spends _ _ _ found
    rw [same, List.count_append, List.count_append]
    rcases spent with rfl | fewer
    · exact later.imp (fun same => by rw [same]) fun fewer => Nat.add_lt_add_left fewer _
    · rcases later with same | fewer'
      · exact .inr (by rw [same]; omega)
      · exact .inr (by omega)

theorem Keeps.substitute (keeps : Keeps c step) (s : Text) : (substitute step s).count c ≤ s.count c := by
  refine substitute_induction (fun s t => t.count c ≤ s.count c) (le_refl _) (fun d s t later => ?_)
    (fun d s new rest t found later => ?_) s
  · rw [List.count_cons, List.count_cons]
    exact Nat.add_le_add_right later _
  · obtain ⟨old, same, kept⟩ := keeps _ _ _ found
    rw [same, List.count_append, List.count_append]
    exact Nat.add_le_add kept later

end Text

/-! ## Removals -/

namespace Shrink

/-- What is recognised holds the character. -/
def Takes (c : Char) (after? : Text → Option Text) : Prop :=
  ∀ s rest, after? s = some rest → ∃ u, c :: u <:+ s ∧ rest <:+ u

/-- Nothing is recognised, wherever in the text it begins. -/
def Absent (after? : Text → Option Text) (s : Text) : Prop := ∀ w, w <:+ s → after? w = none

variable {c : Char} {after? : Text → Option Text} {s rest : Text}

theorem Takes.exists_append (takes : Takes c after?) (found : after? s = some rest) :
    ∃ old, s = old ++ rest ∧ c ∈ old := by
  obtain ⟨u, ⟨v, rfl⟩, ⟨w, rfl⟩⟩ := takes _ _ found
  exact ⟨v ++ c :: w, by simp, by simp⟩

theorem Takes.takesOff (takes : Takes c after?) : TakesOff after? := by
  intro d s rest found
  obtain ⟨old, same, member⟩ := takes.exists_append found
  obtain ⟨e, old, rfl⟩ := List.exists_cons_of_ne_nil (List.ne_nil_of_mem member)
  exact ⟨old, (List.cons.inj same).2.symm⟩

/-- A removal leaves the text as it is or takes a character away. -/
theorem Takes.remove (takes : Takes c after?) (s : Text) :
    Shrink.remove after? s = s ∨ (Shrink.remove after? s).count c < s.count c := by
  refine Text.Spends.substitute (fun s new rest found => ?_) s
  obtain ⟨rest', recognised, same⟩ := Option.map_eq_some_iff.mp found
  obtain ⟨rfl, rfl⟩ := Prod.mk.inj same
  obtain ⟨old, rfl, member⟩ := takes.exists_append recognised
  exact ⟨old, rfl, .inr (List.count_pos_iff.mpr member)⟩

/-- A removal changes nothing exactly where nothing is recognised. -/
theorem Takes.remove_eq_self_iff (takes : Takes c after?) : Shrink.remove after? s = s ↔ Absent after? s := by
  constructor
  · intro same w ends
    cases w with
    | nil =>
      by_contra found
      obtain ⟨rest, found⟩ := Option.ne_none_iff_exists'.mp found
      obtain ⟨old, same, member⟩ := takes.exists_append found
      obtain ⟨rfl, -⟩ := List.append_eq_nil_iff.mp same.symm
      exact absurd member List.not_mem_nil
    | cons d w => exact none_of_remove_eq takes.takesOff same _ ends (List.cons_ne_nil d w)
  · intro absent
    induction s with
    | nil => exact remove_nil
    | cons d s ih =>
      rw [remove_cons_of_none (absent _ (List.suffix_refl _)),
        ih fun w ends => absent w (ends.trans (List.suffix_cons d s))]

theorem afterFirst?_suffix {mark : Text} (found : afterFirst? mark s = some rest) : rest <:+ s := by
  obtain ⟨⟨before, rest'⟩, cut, rfl⟩ := Option.map_eq_some_iff.mp found
  exact ⟨before ++ mark, (Text.eq_append_of_cut? cut).symm⟩

theorem takes_comments : Takes '<' afterComment? := by
  intro s rest found
  obtain ⟨s', start, found⟩ := Option.bind_eq_some_iff.mp found
  obtain rfl := Text.dropPrefix?_eq_some_iff.mp start
  exact ⟨'!' :: '-' :: '-' :: s', List.suffix_refl _, (afterFirst?_suffix found).trans ⟨['!', '-', '-'], rfl⟩⟩

theorem takes_metadata : Takes '<' afterMetadata? := by
  intro s rest found
  unfold afterMetadata? at found
  split at found
  · cases found
  · next s' start =>
    obtain rfl := Text.dropPrefix?_eq_some_iff.mp start
    have later : rest <:+ s' := by
      split at found
      · cases found
      · next c s =>
        refine List.IsSuffix.trans ?_ (List.suffix_cons c s)
        split at found
        · exact afterFirst?_suffix found
        · split at found
          · exact suffix_of_afterChar? found
          · split at found
            · split at found
              · cases found
              · next inside s' cut =>
                have tail : s' <:+ s := ⟨inside ++ ['>'], (Text.eq_append_of_cut? cut).symm⟩
                split at found
                · next rest' ends =>
                  obtain rfl := Option.some.inj found
                  exact (afterFirst?_suffix ends).trans tail
                · split at found
                  · obtain rfl := Option.some.inj found
                    exact tail
                  · cases found
            · cases found
    exact ⟨_, List.suffix_refl _, later.trans ⟨"metadata".toList, rfl⟩⟩

theorem takes_emptyAttributes : Takes '=' afterEmptyAttribute? := by
  intro s rest found
  rw [afterEmptyAttribute?_eq] at found
  obtain ⟨s₁, blanks, found⟩ := Option.bind_eq_some_iff.mp found
  obtain ⟨s₂, name, found⟩ := Option.bind_eq_some_iff.mp found
  obtain ⟨s₃, equals, found⟩ := Option.bind_eq_some_iff.mp found
  refine ⟨s₃, ?_, (suffix_of_afterQuotes? found).trans (List.dropWhile_suffix _)⟩
  rw [← afterChar?_eq_some_iff.mp equals]
  exact (List.dropWhile_suffix _).trans ((suffix_of_afterName? name).trans (suffix_of_afterBlanks? blanks))

theorem takes_editorNamespaces : Takes ':' afterEditorNamespace? := by
  intro s rest found
  rw [afterEditorNamespace?_eq] at found
  obtain ⟨s₁, start, found⟩ := Option.bind_eq_some_iff.mp found
  obtain ⟨s₂, declared, found⟩ := Option.bind_eq_some_iff.mp found
  obtain ⟨name, -, declared⟩ := List.exists_of_findSome?_eq_some declared
  have named : s₂ <:+ s₁ := ⟨_, (Text.dropPrefix?_eq_some_iff.mp declared).symm⟩
  refine ⟨s₁, ?_, (afterFirst?_suffix found).trans named⟩
  have whole := Text.dropPrefix?_eq_some_iff.mp start
  refine List.IsSuffix.trans ?_ (List.dropWhile_suffix Text.isBlank)
  rw [whole]
  exact ⟨"xmlns".toList, rfl⟩

/-! ## Groups -/

theorem afterAttributes_suffix (quote : Option Char) (s : Text) : afterAttributes quote s <:+ s := by
  induction s generalizing quote with
  | nil => exact List.suffix_refl _
  | cons c s ih =>
    have later (quote : Option Char) : afterAttributes quote s <:+ c :: s := (ih quote).trans (List.suffix_cons c s)
    unfold afterAttributes
    split
    · exact later _
    · split
      · exact List.suffix_refl _
      · split
        · split
          · exact later _
          · exact List.suffix_refl _
        · exact later _

theorem afterGroupEnd?_suffix (found : afterGroupEnd? s = some rest) : rest <:+ s := by
  unfold afterGroupEnd? at found
  split at found
  · obtain rfl := Option.some.inj found
    exact ⟨['/', '>'], rfl⟩
  · next s' =>
    have whole := Text.dropPrefix?_eq_some_iff.mp found
    have later : rest <:+ s'.dropWhile Text.isBlank := ⟨_, whole.symm⟩
    exact (later.trans (List.dropWhile_suffix _)).trans (List.suffix_cons _ _)
  · cases found

theorem takes_emptyGroups : Takes '<' afterEmptyGroup? := by
  intro s rest found
  unfold afterEmptyGroup? at found
  split at found
  · next c s =>
    refine ⟨'g' :: c :: s, List.suffix_refl _, ?_⟩
    split at found
    · exact ((afterGroupEnd?_suffix found).trans (afterAttributes_suffix none s)).trans ⟨['g', c], rfl⟩
    · exact (afterGroupEnd?_suffix found).trans ⟨['g'], rfl⟩
  · cases found

theorem removeEmptyGroups_sublist (s : Text) : (removeEmptyGroups s).Sublist s :=
  remove_sublist takes_emptyGroups.takesOff s

theorem collapseGroups_sublist (s : Text) : (collapseGroups s).Sublist s := by
  induction s using collapseGroups.induct with
  | case1 s next shorter ih =>
    rw [collapseGroups, if_pos shorter]
    exact ih.trans (removeEmptyGroups_sublist s)
  | case2 s next longer =>
    rw [collapseGroups, if_neg longer]

/-- Groups are collapsed until none is left. -/
theorem absent_collapseGroups (s : Text) : Absent afterEmptyGroup? (collapseGroups s) := by
  induction s using collapseGroups.induct with
  | case1 s next shorter ih =>
    rw [collapseGroups, if_pos shorter]
    exact ih
  | case2 s next longer =>
    rw [collapseGroups, if_neg longer]
    exact takes_emptyGroups.remove_eq_self_iff.mp
      ((removeEmptyGroups_sublist s).eq_of_length_le (Nat.le_of_not_lt longer))

theorem collapseGroups_of_absent (absent : Absent afterEmptyGroup? s) : collapseGroups s = s := by
  have same : removeEmptyGroups s = s := takes_emptyGroups.remove_eq_self_iff.mpr absent
  rw [collapseGroups, same, if_neg (Nat.lt_irrefl _)]

theorem collapseGroups_eq_self_iff : collapseGroups s = s ↔ Absent afterEmptyGroup? s :=
  ⟨fun same => same ▸ absent_collapseGroups s, collapseGroups_of_absent⟩

/-- Collapsing groups leaves the text as it is or takes markup away. -/
theorem count_collapseGroups (s : Text) : collapseGroups s = s ∨ (collapseGroups s).count '<' < s.count '<' := by
  rw [collapseGroups]
  split
  · next shorter =>
    have changed : removeEmptyGroups s ≠ s := by
      intro same
      rw [same] at shorter
      exact Nat.lt_irrefl _ shorter
    have fewer := (takes_emptyGroups.remove s).resolve_left changed
    exact .inr (Nat.lt_of_le_of_lt ((collapseGroups_sublist _).count_le '<') fewer)
  · exact .inl rfl

/-! ## Declarations -/

theorem sum_count_splitOn {mark : Char} (other : c ≠ mark) (s : Text) :
    ((Text.splitOn mark s).map (List.count c)).sum = s.count c := by
  induction s with
  | nil => rfl
  | cons d s ih =>
    rw [Text.splitOn]
    split
    · next same =>
      rw [List.map_cons, List.sum_cons, ih, same, List.count_cons_of_ne other.symm, List.count_nil, Nat.zero_add]
    · split
      · next none =>
        rw [none, List.map_nil, List.sum_nil] at ih
        rw [List.map_singleton, List.sum_singleton, List.count_cons, List.count_cons, ← ih, List.count_nil]
      · next part parts some =>
        rw [some, List.map_cons, List.sum_cons] at ih
        rw [List.map_cons, List.sum_cons, List.count_cons, List.count_cons, ← ih]
        omega

theorem count_joinWith {between : Text} (absent : c ∉ between) (parts : List Text) :
    (Text.joinWith between parts).count c = (parts.map (List.count c)).sum := by
  have none : between.count c = 0 := List.count_eq_zero.mpr absent
  induction parts with
  | nil => rfl
  | cons first parts ih =>
    cases parts with
    | nil => simp [Text.joinWith]
    | cons second parts =>
      rw [Text.joinWith, List.intercalate_cons_cons, List.count_append, List.count_append, none, List.map_cons,
        List.sum_cons]
      rw [Text.joinWith] at ih
      rw [ih, Nat.add_zero]

theorem count_trim_le (c : Char) (s : Text) : (Text.trim s).count c ≤ s.count c := by
  have ends : (Text.trim s).Sublist (s.dropWhile Text.isBlank) := by
    rw [Text.trim, Text.dropWhileEnd, ← List.reverse_sublist, List.reverse_reverse]
    exact List.dropWhile_sublist _
  exact (ends.trans (List.dropWhile_sublist _)).count_le c

/-- How often the property and the value have a character. -/
def Declaration.count (c : Char) (d : Declaration) : Nat := d.property.count c + d.value.count c

/-- The declarations of a style have no character more often than the style, colons included. -/
theorem sum_count_declarations_le (other : c ≠ ';') (style : Text) :
    ((declarations style).map fun d => d.count c + [':'].count c).sum ≤ style.count c := by
  rw [← sum_count_splitOn other style, declarations]
  induction Text.splitOn ';' style with
  | nil => exact le_refl _
  | cons part parts ih =>
    rw [List.map_cons, List.sum_cons, List.filterMap_cons]
    cases cut : Text.cut? [':'] part with
    | none =>
      rw [Option.map_none]
      exact ih.trans (Nat.le_add_left _ _)
    | some pair =>
      obtain ⟨property, value⟩ := pair
      have whole := Text.eq_append_of_cut? cut
      have here : Declaration.count c ⟨Text.trim property, Text.trim value⟩ + [':'].count c ≤ part.count c := by
        have left := count_trim_le c property
        have right := count_trim_le c value
        rw [whole, List.count_append, List.count_append, Declaration.count]
        dsimp only
        omega
      simp only [Option.map_some, List.map_cons, List.sum_cons]
      exact Nat.add_le_add here ih

/-! ## Styles -/

/-- Where a style attribute begins. -/
theorem exists_of_styleAt?_eq_some {s style after rest : Text} (found : styleAt? s = some (style, after, rest)) :
    ∃ blanks q q', s = blanks ++ styleStart ++ q :: (style ++ q' :: (after ++ '>' :: rest)) := by
  unfold styleAt? at found
  split at found
  · next q rest₁ start =>
    obtain ⟨s₁, blank, begins⟩ := Option.bind_eq_some_iff.mp start
    obtain rfl := Text.dropPrefix?_eq_some_iff.mp begins
    obtain ⟨blanks, -, rfl, -⟩ := afterBlanks?_eq_some_iff.mp blank
    split at found
    · split at found
      · cases found
      · next q' rest₂ value =>
        obtain ⟨⟨after₂, rest₃⟩, cut, same⟩ := Option.map_eq_some_iff.mp found
        simp only [Prod.mk.injEq] at same
        obtain ⟨rfl, rfl, rfl⟩ := same
        have whole : rest₁ = rest₁.takeWhile (!isQuote ·) ++ q' :: rest₂ := by
          rw [← value, List.takeWhile_append_dropWhile]
        refine ⟨blanks, q, q', ?_⟩
        conv_lhs => rw [whole, Text.eq_append_of_cut? cut]
        simp
    · cases found
  · cases found

/-- Where a style is found, and what is written around it. -/
theorem exists_of_findStyle? {s before style after rest : Text}
    (found : findStyle? s = some (before, style, after, rest)) :
    ∃ blanks q q', s = before ++ (blanks ++ styleStart ++ q :: (style ++ q' :: (after ++ '>' :: rest))) := by
  induction s generalizing before with
  | nil => cases found
  | cons c s ih =>
    rw [findStyle?_cons] at found
    split at found
    · next here =>
      obtain ⟨rfl, rfl⟩ := Prod.mk.inj (Option.some.inj found)
      exact exists_of_styleAt?_eq_some here
    · split at found
      · cases found
      · obtain ⟨⟨before', found'⟩, later, same⟩ := Option.map_eq_some_iff.mp found
        obtain ⟨rfl, rfl⟩ := Prod.mk.inj same
        obtain ⟨blanks, q, q', rfl⟩ := ih later
        exact ⟨blanks, q, q', rfl⟩

/-- The marks that taking a style apart may write, colons apart. -/
def styleMarks : List Char := ['=', '"', ' ', ';'] ++ styleStart

theorem count_cons_of_mark {d : Char} (mark : d ∈ styleMarks) (other : c ∉ styleMarks) (s : Text) :
    (d :: s).count c = s.count c :=
  List.count_cons_of_ne (ne_of_mem_of_not_mem mark other)

theorem count_attribute (other : c ∉ styleMarks) (d : Declaration) : d.attribute.count c = d.count c := by
  rw [Declaration.attribute, Declaration.count, List.count_append, count_cons_of_mark (by decide) other,
    count_cons_of_mark (by decide) other, List.count_append, count_cons_of_mark (by decide) other, List.count_nil,
    Nat.add_zero]

theorem count_text (d : Declaration) : d.text.count c = d.count c + [':'].count c := by
  rw [Declaration.text, Declaration.count, List.count_append, List.count_cons, List.count_singleton]
  omega

theorem count_attributes (other : c ∉ styleMarks) (ds : List Declaration) :
    (Text.joinWith [' '] (ds.map Declaration.attribute)).count c = (ds.map (Declaration.count c)).sum := by
  have between : [' '].count c = 0 := count_cons_of_mark (by decide) other []
  rw [count_joinWith (List.count_eq_zero.mp between), List.map_map]
  exact congrArg List.sum (List.map_congr_left fun d _ => count_attribute other d)

theorem count_texts (other : c ∉ styleMarks) (ds : List Declaration) :
    (Text.joinWith [';', ' '] (ds.map Declaration.text)).count c = (ds.map fun d => d.count c + [':'].count c).sum := by
  have between : [';', ' '].count c = 0 := by
    rw [count_cons_of_mark (by decide) other, count_cons_of_mark (by decide) other, List.count_nil]
  rw [count_joinWith (List.count_eq_zero.mp between), List.map_map]
  exact congrArg List.sum (List.map_congr_left fun d _ => count_text d)

/-- The declarations that are kept, in a style attribute of their own if there are any. -/
theorem count_kept (other : c ∉ styleMarks) (ds : List Declaration) :
    (if ds = [] then [] else
      ' ' :: (styleStart ++ '"' :: (Text.joinWith [';', ' '] (ds.map Declaration.text) ++ ['"']))).count c =
        (ds.map fun d => d.count c + [':'].count c).sum := by
  split
  · next none => rw [none, List.count_nil, List.map_nil, List.sum_nil]
  · have start : styleStart.count c = 0 := List.count_eq_zero.mpr fun member => other (List.mem_append_right _ member)
    have quote (s : Text) : ('"' :: s).count c = s.count c := count_cons_of_mark (by decide) other s
    rw [count_cons_of_mark (by decide) other, List.count_append, start, quote, List.count_append, quote, List.count_nil,
      Nat.zero_add, Nat.add_zero, count_texts other]

/-- A tag with a style lifted from it has fewer colons, and no other mark more often. -/
theorem count_liftStyle? {name before style after tag : Text} (found : liftStyle? name before style after = some tag)
    (other : c ∉ styleMarks) :
    ∃ n, 0 < n ∧ tag.count c + n * [':'].count c ≤
      name.count c + before.count c + style.count c + after.count c + ['>'].count c := by
  unfold liftStyle? at found
  split at found
  · cases found
  · dsimp only at found
    split at found
    · cases found
    · next some =>
      obtain rfl := Option.some.inj found
      generalize namesBeforeEquals before ++ namesBeforeEquals after = existing at some ⊢
      refine ⟨((declarations style).filter (isLiftable existing)).length, List.length_pos_iff.mpr some, ?_⟩
      have noSemicolon : ';' ≠ c := ne_of_mem_of_not_mem (by decide : ';' ∈ styleMarks) other
      have all := sum_count_declarations_le noSemicolon.symm style
      rw [← List.sum_map_filter_add_sum_map_filter_not (isLiftable existing · = true)] at all
      simp only [Bool.decide_eq_true, decide_not] at all
      generalize (declarations style).filter (isLiftable existing) = lifted at all ⊢
      generalize (declarations style).filter (!isLiftable existing ·) = kept at all ⊢
      have colons : (lifted.map fun d => d.count c + [':'].count c).sum =
          (lifted.map (Declaration.count c)).sum + lifted.length * [':'].count c := by
        simp [List.sum_map_add]
      simp only [List.count_append, count_cons_of_mark (by decide : ' ' ∈ styleMarks) other, count_attributes other,
        count_kept other]
      omega

/-- A styled tag is left as it is, or it has fewer colons afterwards and no other mark more often. -/
theorem exists_of_styledTag? {s new rest : Text} (found : styledTag? s = some (new, rest)) :
    ∃ old, s = old ++ rest ∧ (new = old ∨ ∀ c, c ∉ styleMarks →
      ∃ n, 0 < n ∧ new.count c + n * [':'].count c ≤ old.count c) := by
  unfold styledTag? at found
  split at found
  · next s =>
    dsimp only at found
    split at found
    · cases found
    · obtain ⟨⟨before, style, after, rest'⟩, styled, same⟩ := Option.map_eq_some_iff.mp found
      obtain ⟨blanks, q, q', whole⟩ := exists_of_findStyle? styled
      have split : s =
        s.takeWhile isNamePart ++ before ++ (blanks ++ styleStart ++ q :: style) ++ q' :: after ++ ['>'] ++ rest' := by
        conv_lhs => rw [← List.takeWhile_append_dropWhile (p := isNamePart) (l := s), whole]
        simp
      generalize s.takeWhile isNamePart = name at same split
      cases lifted : liftStyle? name before style after with
      | none =>
        simp only [lifted, Prod.mk.injEq] at same
        obtain ⟨rfl, rfl⟩ := same
        refine ⟨'<' :: _, congrArg (List.cons '<') split, .inl ?_⟩
        rw [split, List.length_append, Nat.add_sub_cancel, List.take_left' rfl]
      | some tag =>
        simp only [lifted, Prod.mk.injEq] at same
        obtain ⟨rfl, rfl⟩ := same
        refine ⟨'<' :: _, congrArg (List.cons '<') split, .inr fun c other => ?_⟩
        obtain ⟨n, positive, fewer⟩ := count_liftStyle? lifted other
        refine ⟨n, positive, ?_⟩
        simp only [List.count_cons, List.count_append] at fewer ⊢
        omega
  · cases found

theorem spends_styles : Text.Spends ':' styledTag? := by
  intro s new rest found
  obtain ⟨old, same, written⟩ := exists_of_styledTag? found
  refine ⟨old, same, written.imp_right fun counts => ?_⟩
  obtain ⟨n, positive, fewer⟩ := counts ':' (by decide)
  rw [List.count_singleton_self, Nat.mul_one] at fewer
  omega

theorem keeps_styles : Text.Keeps '<' styledTag? := by
  intro s new rest found
  obtain ⟨old, same, rfl | counts⟩ := exists_of_styledTag? found
  · exact ⟨new, same, le_refl _⟩
  · obtain ⟨n, -, fewer⟩ := counts '<' (by decide)
    exact ⟨old, same, (Nat.le_add_right _ _).trans fewer⟩

end Shrink

/-! ## Condensing -/

/-- Characters that are no blanks and no parts of numbers stay when a text is condensed. -/
theorem Condensed.count_eq {s t : Text} (h : Condensed s t) {c : Char} (noBlank : Text.isBlank c = false)
    (noPart : isNumberPart c = false) : t.count c = s.count c := by
  have blanks {blanks : Text} (run : BlankRun blanks) : blanks.count c = 0 := by
    refine List.count_eq_zero.mpr fun member => ?_
    rw [run.blank c member] at noBlank
    cases noBlank
  have number {m : Text} (number : IsNumber m) : m.count c = 0 := by
    refine List.count_eq_zero.mpr fun member => ?_
    rw [number.parts c member] at noPart
    cases noPart
  induction h with
  | nil => rfl
  | keep d _ ih => rw [List.count_cons, List.count_cons, ih]
  | decimal decimal written _ ih =>
    rw [List.count_append, List.count_append, number decimal.isNumber, number written, ih]
  | blank run _ ih =>
    have space : c ≠ ' ' := by
      rintro rfl
      cases noBlank
    rw [List.count_append, blanks run, List.count_cons_of_ne space.symm, ih, Nat.zero_add]
  | noBlank run _ _ ih => rw [List.count_append, blanks run, ih, Nat.zero_add]
  | opening run _ ih => rw [List.count_cons, List.count_cons, List.count_append, blanks run, ih, Nat.zero_add]

end SvgEdit
