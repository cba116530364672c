import SvgEdit.Proofs.BlanksAgain
import SvgEdit.Proofs.PassCounts
import SvgEdit.Proofs.RoundingAgain
import SvgEdit.Shrink.Report

/-!
# Shrinking again

Each pass of a level runs once, so a pass may leave what an earlier one looks for. A shrunk text is the same
after it is shrunk again exactly if that has not happened. The last passes, which shorten decimals and remove
blanks, have nothing left to do, unless a decimal vanishes; and they cannot make up for what an earlier pass
takes away.
-/
namespace SvgEdit
namespace Shrink

variable {o : Options} {s t : Text}

/-! ## Passes of a level -/

/-- The text with empty groups collapsed, if the level has that pass. -/
def groupsCollapsed (o : Options) (s : Text) : Text := if o.level = .light then s else collapseGroups s

/-- The text with styles taken apart, if the level has that pass. -/
def stylesLifted (o : Options) (s : Text) : Text := if o.level = .aggressive then liftStyles s else s

/-- The text with shorter decimals, if the level has that pass. -/
def decimalsShortened (o : Options) (s : Text) : Text :=
  if o.level = .light then s else o.places.elim s (shortenDecimals · s)

theorem shrink_eq (o : Options) (s : Text) : shrink o s =
    removeBlanks (decimalsShortened o (stylesLifted o (groupsCollapsed o
      (removeEditorNamespaces (removeEmptyAttributes (removeMetadata (removeComments s))))))) := by
  obtain ⟨level, precision⟩ := o
  cases level <;> rfl

/-! ## What passes take away -/

/-- Characters that neither blanks nor numbers have stay to the end. -/
theorem count_condensed {c : Char} (noBlank : Text.isBlank c = false) (noPart : isNumberPart c = false) (o : Options)
    (s : Text) : (removeBlanks (decimalsShortened o s)).count c = s.count c := by
  have blanks : (removeBlanks (decimalsShortened o s)).count c = (decimalsShortened o s).count c := by
    refine @removeBlanks_induction (decimalsShortened o s) (fun t => t.count c = _) (fun _ _ thinned same => ?_) rfl
    rw [thinned.condensed.count_eq noBlank noPart, same]
  have decimals : (decimalsShortened o s).count c = s.count c := by
    unfold decimalsShortened
    split
    · rfl
    · cases o.places with
      | none => rfl
      | some places => exact (condensed_shortenDecimals places s).count_eq noBlank noPart
  rw [blanks, decimals]

theorem count_stylesLifted_le (o : Options) (s : Text) : (stylesLifted o s).count '<' ≤ s.count '<' := by
  unfold stylesLifted
  split
  · exact keeps_styles.substitute s
  · exact le_refl _

theorem stylesLifted_spends (o : Options) (s : Text) :
    stylesLifted o s = s ∨ (stylesLifted o s).count ':' < s.count ':' := by
  unfold stylesLifted
  split
  · exact spends_styles.substitute s
  · exact .inl rfl

theorem groupsCollapsed_sublist (o : Options) (s : Text) : (groupsCollapsed o s).Sublist s := by
  unfold groupsCollapsed
  split
  · exact List.Sublist.refl s
  · exact collapseGroups_sublist s

theorem groupsCollapsed_spends (o : Options) (s : Text) :
    groupsCollapsed o s = s ∨ (groupsCollapsed o s).count '<' < s.count '<' := by
  unfold groupsCollapsed
  split
  · exact .inl rfl
  · exact count_collapseGroups s

theorem Takes.count_le {c : Char} {after? : Text → Option Text} (takes : Takes c after?) (d : Char) (s : Text) :
    (Shrink.remove after? s).count d ≤ s.count d :=
  (remove_sublist takes.takesOff s).count_le d

/-- A pass that takes characters away has changed nothing if as many are left. -/
theorem eq_of_count_le {c : Char} (spends : t = s ∨ t.count c < s.count c) (least : s.count c ≤ t.count c) : t = s :=
  spends.resolve_right (Nat.not_lt.mpr least)

/-- If shrinking changes nothing, no pass before the last two does, and they undo each other at most. -/
theorem passes_unchanged (same : shrink o t = t) :
    removeComments t = t ∧ removeMetadata t = t ∧ removeEmptyAttributes t = t ∧ removeEditorNamespaces t = t ∧
      groupsCollapsed o t = t ∧ stylesLifted o t = t ∧ removeBlanks (decimalsShortened o t) = t := by
  rw [shrink_eq] at same
  obtain ⟨s₁, first⟩ : ∃ s₁, removeComments t = s₁ := ⟨_, rfl⟩
  obtain ⟨s₂, second⟩ : ∃ s₂, removeMetadata s₁ = s₂ := ⟨_, rfl⟩
  obtain ⟨s₃, third⟩ : ∃ s₃, removeEmptyAttributes s₂ = s₃ := ⟨_, rfl⟩
  obtain ⟨s₄, fourth⟩ : ∃ s₄, removeEditorNamespaces s₃ = s₄ := ⟨_, rfl⟩
  obtain ⟨s₅, fifth⟩ : ∃ s₅, groupsCollapsed o s₄ = s₅ := ⟨_, rfl⟩
  obtain ⟨s₆, sixth⟩ : ∃ s₆, stylesLifted o s₅ = s₆ := ⟨_, rfl⟩
  rw [first, second, third, fourth, fifth, sixth] at same
  have least (c : Char) (noBlank : Text.isBlank c = false) (noPart : isNumberPart c = false) :
      t.count c ≤ s₆.count c := by
    rw [← count_condensed noBlank noPart o s₆, same]
  have le₁ (c : Char) : s₁.count c ≤ t.count c := first ▸ takes_comments.count_le c t
  have le₂ (c : Char) : s₂.count c ≤ s₁.count c := second ▸ takes_metadata.count_le c s₁
  have le₃ (c : Char) : s₃.count c ≤ s₂.count c := third ▸ takes_emptyAttributes.count_le c s₂
  have le₄ (c : Char) : s₄.count c ≤ s₃.count c := fourth ▸ takes_editorNamespaces.count_le c s₃
  have le₅ (c : Char) : s₅.count c ≤ s₄.count c := fifth ▸ (groupsCollapsed_sublist o s₄).count_le c
  have le₆ : s₆.count '<' ≤ s₅.count '<' := sixth ▸ count_stylesLifted_le o s₅
  have up (c : Char) : s₅.count c ≤ s₃.count c := (le₅ c).trans (le₄ c)
  -- No tag is lost, so there were no comments, metadata and groups.
  have tags := (least '<' (by decide) (by decide)).trans le₆
  have comments : s₁ = t := eq_of_count_le (first ▸ takes_comments.remove t)
    (tags.trans ((up '<').trans ((le₃ '<').trans (le₂ '<'))))
  rw [comments] at second le₂
  have metadata : s₂ = t := eq_of_count_le (second ▸ takes_metadata.remove t)
    (tags.trans ((up '<').trans (le₃ '<')))
  rw [metadata] at second third le₃
  have groups : s₅ = s₄ := eq_of_count_le (fifth ▸ groupsCollapsed_spends o s₄)
    (((le₄ '<').trans ((le₃ '<').trans tags)))
  rw [groups] at fifth sixth
  -- No colon is lost, so there were no declarations of editors' names and no styles.
  have colons := least ':' (by decide) (by decide)
  have styles : s₆ = s₄ := eq_of_count_le (sixth ▸ stylesLifted_spends o s₄)
    ((le₄ ':').trans ((le₃ ':').trans colons))
  rw [styles] at sixth same colons least
  have editorNamespaces : s₄ = s₃ := eq_of_count_le (fourth ▸ takes_editorNamespaces.remove s₃)
    ((le₃ ':').trans colons)
  rw [editorNamespaces] at fourth fifth sixth same least
  -- No equals sign is lost, so there were no attributes without a value.
  have emptyAttributes : s₃ = t := eq_of_count_le (third ▸ takes_emptyAttributes.remove t)
    (least '=' (by decide) (by decide))
  rw [emptyAttributes] at third fourth fifth sixth same
  exact ⟨first.trans comments, second, third, fourth, fifth, sixth, same⟩

/-! ## Texts that are settled -/

/-- The passes of the level find nothing in the text, but blanks that stay and decimals that do not vanish. -/
structure Settled (o : Options) (t : Text) : Prop where
  comments : Absent afterComment? t
  metadata : Absent afterMetadata? t
  emptyAttributes : Absent afterEmptyAttribute? t
  editorNamespaces : Absent afterEditorNamespace? t
  groups : o.level ≠ .light → Absent afterEmptyGroup? t
  styles : o.level = .aggressive → liftStyles t = t
  decimals : o.level ≠ .light → ∀ places ∈ o.places, 22 < places → ¬ Vanishing places t

theorem groupsCollapsed_eq_self_iff : groupsCollapsed o t = t ↔ (o.level ≠ .light → Absent afterEmptyGroup? t) := by
  rw [groupsCollapsed, ← collapseGroups_eq_self_iff]
  split
  · next light => exact ⟨fun _ heavy => absurd light heavy, fun _ => rfl⟩
  · next heavy => exact ⟨fun same _ => same, fun same => same heavy⟩

theorem stylesLifted_eq_self_iff : stylesLifted o t = t ↔ (o.level = .aggressive → liftStyles t = t) := by
  rw [stylesLifted]
  split
  · next aggressive => exact ⟨fun same _ => same, fun same => same aggressive⟩
  · next mild => exact ⟨fun _ aggressive => absurd aggressive mild, fun _ => rfl⟩

/-- Where the decimals are rounded and the blanks are gone, only decimals that vanish are left to change. -/
theorem Rounded.removeBlanks_eq_self_iff {places : Nat} (rounded : Rounded places t) (blanks : removeBlanks t = t) :
    removeBlanks (shortenDecimals places t) = t ↔ (22 < places → ¬ Vanishing places t) := by
  have lasts : (22 < places → ¬ Vanishing places t) ↔ shortenDecimals places t = t := by
    rw [rounded.shortenDecimals_eq_self_iff]
    exact ⟨fun lasting vanishing => lasting (rounded.many_of_vanishing vanishing) vanishing, fun lasting _ => lasting⟩
  rw [lasts]
  constructor
  · intro same
    refine (rounded.dwindles (u := [])).resolve_right fun shorter => ?_
    have fewer := length_removeBlanks_le (shortenDecimals places t)
    rw [same] at fewer
    exact absurd shorter (Nat.not_lt.mpr fewer)
  · intro same
    rw [same, blanks]

/-- The last two passes over what they have left. -/
theorem condensed_eq_self_iff (o : Options) (s : Text) :
    let t := removeBlanks (decimalsShortened o s)
    removeBlanks (decimalsShortened o t) = t ↔
      (o.level ≠ .light → ∀ places ∈ o.places, 22 < places → ¬ Vanishing places t) := by
  intro t
  have blanks : removeBlanks t = t := removeBlanks_removeBlanks (decimalsShortened o s)
  by_cases light : o.level = .light
  · have kept : decimalsShortened o t = t := if_pos light
    rw [kept]
    exact ⟨fun _ heavy => absurd light heavy, fun _ => blanks⟩
  · have shortened (s : Text) : decimalsShortened o s = o.places.elim s (shortenDecimals · s) := if_neg light
    rw [shortened]
    cases known : o.places with
    | none =>
      exact ⟨fun _ _ places member => absurd member (Option.not_mem_none places), fun _ => blanks⟩
    | some places =>
      have rounded : Rounded places t := by
        have same : t = removeBlanks (shortenDecimals places s) := by
          simp only [t, shortened, known, Option.elim_some]
        rw [same]
        exact rounded_removeBlanks places s
      rw [Option.elim_some, rounded.removeBlanks_eq_self_iff blanks]
      exact ⟨fun lasting _ _ member => Option.some.inj member ▸ lasting, fun lasting => lasting light places rfl⟩

/-- A shrunk text is the same after it is shrunk again exactly if it is settled. -/
theorem optimized_again_iff (o : Options) (s : Text) :
    (optimize o (optimize o s).document).document = (optimize o s).document ↔ Settled o (optimize o s).document := by
  simp only [optimize]
  obtain ⟨w, whole⟩ : ∃ w, shrink o s = removeBlanks (decimalsShortened o w) := ⟨_, shrink_eq o s⟩
  have last := condensed_eq_self_iff o w
  rw [← whole] at last
  constructor
  · intro same
    obtain ⟨comments, metadata, emptyAttributes, editorNamespaces, groups, styles, condensed⟩ := passes_unchanged same
    exact {
      comments := takes_comments.remove_eq_self_iff.mp comments
      metadata := takes_metadata.remove_eq_self_iff.mp metadata
      emptyAttributes := takes_emptyAttributes.remove_eq_self_iff.mp emptyAttributes
      editorNamespaces := takes_editorNamespaces.remove_eq_self_iff.mp editorNamespaces
      groups := groupsCollapsed_eq_self_iff.mp groups
      styles := stylesLifted_eq_self_iff.mp styles
      decimals := last.mp condensed }
  · intro settled
    have comments : removeComments _ = _ := takes_comments.remove_eq_self_iff.mpr settled.comments
    have metadata : removeMetadata _ = _ := takes_metadata.remove_eq_self_iff.mpr settled.metadata
    have emptyAttributes : removeEmptyAttributes _ = _ :=
      takes_emptyAttributes.remove_eq_self_iff.mpr settled.emptyAttributes
    have editorNamespaces : removeEditorNamespaces _ = _ :=
      takes_editorNamespaces.remove_eq_self_iff.mpr settled.editorNamespaces
    rw [shrink_eq o (shrink o s), comments, metadata, emptyAttributes, editorNamespaces,
      groupsCollapsed_eq_self_iff.mpr settled.groups, stylesLifted_eq_self_iff.mpr settled.styles]
    exact last.mpr settled.decimals

/-- When its blanks are gone, a declaration can be removed. -/
theorem light_changes_again :
    let s : Text := "<svg xmlns:ai = \"x\"/>".toList
    let t := (optimize { level := .light } s).document
    (∃ d, Document.parse s = .ok d) ∧ (∃ d, Document.parse t = .ok d) ∧
      (optimize { level := .light } t).document ≠ t := by
  have shrunk : (optimize { level := .light } "<svg xmlns:ai = \"x\"/>".toList).document =
      "<svg xmlns:ai=\"x\"/>".toList := by decide +kernel
  dsimp only
  rw [shrunk]
  refine ⟨⟨⟨[], ⟨⟨"svg".toList, [⟨"xmlns:ai".toList, "x".toList, some ⟨"x".toList, .double⟩⟩], true⟩, .nil⟩, []⟩, ?_⟩,
    ⟨⟨[], ⟨⟨"svg".toList, [⟨"xmlns:ai".toList, "x".toList, some ⟨"x".toList, .double⟩⟩], true⟩, .nil⟩, []⟩, ?_⟩, ?_⟩
  · cbv
  · cbv
  · decide +kernel

end Shrink
end SvgEdit
