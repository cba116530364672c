import SvgEdit.Proofs.PassCounts
import SvgEdit.Proofs.PrunedGroups
import SvgEdit.Proofs.Tags

/-!
# Empty groups deleted by way of the text

Groups are removed from the text in rounds, and each round finds them without regard to the tree. In neat
documents a round deletes empty groups and nothing else, and as long as there are any, a round finds one. So
the rounds end with the source of the document whose empty groups are deleted until none is left.
-/
namespace SvgEdit

/-! ## Rounds -/

namespace Shrink

/-- The rounds stop at the first text in which no group is recognised. -/
theorem collapseGroups_eq_iterate (s : Text) : ∃ n, collapseGroups s = removeEmptyGroups^[n] s ∧
    ∀ k < n, ¬ Absent afterEmptyGroup? (removeEmptyGroups^[k] s) := by
  induction s using collapseGroups.induct with
  | case1 s next shorter ih =>
    obtain ⟨n, rounds, more⟩ := ih
    refine ⟨n + 1, by rw [collapseGroups, if_pos shorter, rounds, Function.iterate_succ_apply], fun k fewer => ?_⟩
    cases k with
    | zero =>
      intro absent
      have same : removeEmptyGroups s = s := takes_emptyGroups.remove_eq_self_iff.mpr absent
      rw [show next = s from same] at shorter
      exact Nat.lt_irrefl _ shorter
    | succ k => exact more k (Nat.lt_of_succ_lt_succ fewer)
  | case2 s next longer =>
    refine ⟨0, by rw [collapseGroups, if_neg longer, Function.iterate_zero_apply], fun k fewer => ?_⟩
    exact absurd fewer (Nat.not_lt_zero k)

end Shrink

open SvgEdit.Shrink (Absent afterEmptyGroup? afterGroupEnd? collapseGroups removal removeEmptyGroups)

/-! ## Neat documents -/

/-- A name without blanks of any kind and without the marks of tags. -/
def NeatName (name : Text) : Prop :=
  name ≠ [] ∧ ∀ c ∈ name, Text.isBlank c = false ∧ c ∉ ['/', '=', '<', '>', '"', '\'']

instance (name : Text) : Decidable (NeatName name) := inferInstanceAs (Decidable (_ ∧ _))

/-- Between its quotes no markup begins; other marks are free. -/
def Attribute.Neat (a : Attribute) : Prop :=
  NeatName a.name ∧ a.written.spelling.quote.char ∉ a.written.spelling.raw ∧ '<' ∉ a.written.spelling.raw

instance (a : Attribute) : Decidable a.Neat := inferInstanceAs (Decidable (_ ∧ _))

def Tag.Neat (t : Tag) : Prop := NeatName t.name ∧ ∀ a ∈ t.attributes, a.Neat

instance (t : Tag) : Decidable t.Neat := inferInstanceAs (Decidable (_ ∧ _))

/-- Raw pieces are text and references: no markup begins in them. -/
def Content.Neat : Content → Prop
  | nil => True
  | raw source next => '<' ∉ source ∧ next.Neat
  | element tag inside next => tag.Neat ∧ inside.Neat ∧ next.Neat

structure Document.Neat (d : Document) : Prop where
  prolog : ∀ source ∈ d.prolog, '<' ∉ source
  root : d.root.tag.Neat
  content : d.root.content.Neat
  epilog : ∀ source ∈ d.epilog, '<' ∉ source

theorem NeatName.plain {name : Text} (h : NeatName name) : Plain name := by
  refine ⟨h.1, fun c member => ?_⟩
  obtain ⟨noBlank, noMark⟩ := h.2 c member
  simp only [List.mem_cons, List.not_mem_nil, or_false, not_or] at noMark
  refine isPlainChar_iff.mpr ⟨?_, noMark⟩
  cases space : isSpace c with
  | false => rfl
  | true => rw [Text.isBlank_of_isSpace space] at noBlank; cases noBlank

theorem NeatName.noLess {name : Text} (h : NeatName name) : '<' ∉ name :=
  fun member => (h.2 _ member).2 (by decide)

namespace Tag.Neat

variable {t : Tag}

theorem opened (h : t.Neat) : t.opened.Neat := h

theorem noLess_inside (h : t.Neat) : '<' ∉ t.inside := by
  intro member
  rcases List.mem_append.mp member with member | member
  · exact h.1.noLess member
  · obtain ⟨a, listed, member⟩ := List.mem_flatMap.mp member
    obtain ⟨name, -, value⟩ := h.2 a listed
    have quote : '<' ≠ a.written.spelling.quote.char := by cases a.written.spelling.quote <;> decide
    rw [a.source_eq] at member
    simp [name.noLess, value, quote] at member

theorem exists_inside (h : t.Neat) : ∃ c u, t.inside = c :: u ∧ c ≠ '/' := by
  obtain ⟨c, u, same⟩ := List.exists_cons_of_ne_nil h.1.1
  refine ⟨c, u ++ t.attributes.source, by rw [Tag.inside, same]; rfl, ?_⟩
  rintro rfl
  exact (h.1.2 '/' (by rw [same]; exact List.mem_cons_self)).2 (by decide)

theorem proper (h : t.Neat) (named : t.name = groupName) : t.spelling.Proper := by
  have none : Spaces [] := fun _ member => absurd member List.not_mem_nil
  have one : Spaces [' '] := by unfold Spaces; decide
  refine ⟨h.1.plain, ?_, fun a member => ?_, none⟩
  · rw [show t.spelling.name = groupName from named]
    unfold BeginsTag
    decide
  · obtain ⟨b, listed, rfl⟩ := List.mem_map.mp member
    obtain ⟨name, closed, -⟩ := h.2 b listed
    exact ⟨List.cons_ne_nil _ _, one, name.plain, none, none, closed⟩

/-- Where a group begins, its tag is read to the end: quoted marks do not end it. -/
theorem afterEmptyGroup?_of_named (h : t.Neat) (named : t.name = groupName) {close : Char}
    (ends : close = '>' ∨ close = '/') (s : Text) :
    afterEmptyGroup? ('<' :: (t.inside ++ close :: s)) = afterGroupEnd? (close :: s) := by
  rw [← t.inside_spelling]
  exact Shrink.afterEmptyGroup?_of_named (h.proper named) named ends s

/-- Where another tag begins, no group does, even if its name begins like that of a group. -/
theorem afterEmptyGroup?_of_ne (h : t.Neat) (other : t.name ≠ groupName) (s : Text) :
    afterEmptyGroup? ('<' :: (t.inside ++ s)) = none := by
  rw [Tag.inside, List.append_assoc]
  exact Shrink.afterEmptyGroup?_of_ne h.1.plain (fun c member => (h.1.2 c member).1) other _

end Tag.Neat

/-! ## Elements in the text -/

namespace Content

variable {tag : Tag} {inside next : Content}

theorem source_element_empty (short : tag.selfClosing = true ∧ inside = .nil) (s : Text) :
    (element tag inside next).source ++ s = '<' :: (tag.inside ++ '/' :: '>' :: (next.source ++ s)) := by
  rw [source, Tag.enclose, if_pos (by simpa using short), Tag.inside]
  simp

theorem source_element_open (long : ¬ (tag.selfClosing = true ∧ inside = .nil)) (s : Text) :
    (element tag inside next).source ++ s =
      '<' :: (tag.inside ++ '>' :: (inside.source ++ '<' :: '/' :: (tag.name ++ '>' :: (next.source ++ s)))) := by
  rw [source, Tag.enclose, if_neg (by simpa using long), Tag.inside]
  simp

/-- What is written with an end tag still is after deletions inside of it. -/
theorem not_empty_of_deletes {inside' : Content} (long : ¬ (tag.selfClosing = true ∧ inside = .nil)) :
    ¬ ((if inside' = inside then tag else tag.opened).selfClosing = true ∧ inside' = .nil) := by
  rintro ⟨short, rfl⟩
  split at short
  · next same => exact long ⟨short, same.symm⟩
  · cases short

theorem dropWhile_source_of_isBlank {c : Content} (blank : c.isBlank = true) (s : Text) :
    (c.source ++ s).dropWhile Text.isBlank = s.dropWhile Text.isBlank := by
  induction c with
  | nil => rfl
  | raw source next ih =>
    rw [isBlank, Bool.and_eq_true, Text.isBlankText, List.all_eq_true] at blank
    rw [Content.source, List.append_assoc, List.dropWhile_append_of_pos blank.1, ih blank.2]
  | element => cases blank

/-- Behind content that is not blank no end tag is looked for. -/
theorem dropPrefix?_source_of_not_isBlank {c : Content} (neat : c.Neat) (filled : c.isBlank = false) (s : Text) :
    Text.dropPrefix? ['<', '/', 'g', '>'] ((c.source ++ s).dropWhile Text.isBlank) = none := by
  induction c with
  | nil => cases filled
  | raw source next ih =>
    obtain ⟨noLess, neat⟩ := neat
    rw [Content.source, List.append_assoc, List.dropWhile_append]
    cases rest : source.dropWhile Text.isBlank with
    | nil =>
      have blank : Text.isBlankText source = true := List.all_eq_true.mpr (List.dropWhile_eq_nil_iff.mp rest)
      rw [isBlank, blank, Bool.true_and] at filled
      simpa using ih neat filled
    | cons d u =>
      have member : d ∈ source := (List.dropWhile_suffix _).subset (by rw [rest]; exact List.mem_cons_self)
      have other : d ≠ '<' := fun same => noLess (same ▸ member)
      simp [Text.dropPrefix?, other]
  | element tag inside next =>
    obtain ⟨c, u, same, noSlash⟩ := neat.1.exists_inside
    have start : ∃ v, (element tag inside next).source ++ s = '<' :: c :: v := by
      by_cases short : tag.selfClosing = true ∧ inside = .nil
      · exact ⟨_, by rw [source_element_empty short, same, List.cons_append]⟩
      · exact ⟨_, by rw [source_element_open short, same, List.cons_append]⟩
    obtain ⟨v, start⟩ := start
    rw [start, List.dropWhile_cons_of_neg (by decide)]
    simp [Text.dropPrefix?, noSlash]

/-- An empty group is recognised, whether it has an end tag or not. -/
theorem afterEmptyGroup?_of_isBlank (neat : tag.Neat) (named : tag.name = groupName) (blank : inside.isBlank = true)
    (s : Text) : afterEmptyGroup? ((element tag inside next).source ++ s) = some (next.source ++ s) := by
  by_cases short : tag.selfClosing = true ∧ inside = .nil
  · rw [source_element_empty short, neat.afterEmptyGroup?_of_named named (.inr rfl)]
    rfl
  · rw [source_element_open short, neat.afterEmptyGroup?_of_named named (.inl rfl), afterGroupEnd?,
      dropWhile_source_of_isBlank blank, List.dropWhile_cons_of_neg (by decide), named]
    rfl

/-- Any other element is not recognised at its start tag. -/
theorem afterEmptyGroup?_of_filled (neat : (element tag inside next).Neat)
    (filled : ¬ (tag.name = groupName ∧ inside.isBlank = true)) (s : Text) :
    afterEmptyGroup? ((element tag inside next).source ++ s) = none := by
  obtain ⟨neatTag, neatInside, -⟩ := neat
  by_cases named : tag.name = groupName
  · have notBlank : inside.isBlank = false := by
      cases blank : inside.isBlank with
      | false => rfl
      | true => exact absurd ⟨named, blank⟩ filled
    have long : ¬ (tag.selfClosing = true ∧ inside = .nil) := by
      rintro ⟨-, rfl⟩
      cases notBlank
    rw [source_element_open long, neatTag.afterEmptyGroup?_of_named named (.inl rfl), afterGroupEnd?,
      dropPrefix?_source_of_not_isBlank neatInside notBlank]
  · by_cases short : tag.selfClosing = true ∧ inside = .nil
    · rw [source_element_empty short, neatTag.afterEmptyGroup?_of_ne named]
    · rw [source_element_open short, neatTag.afterEmptyGroup?_of_ne named]

/-! ## One round -/

theorem removeEmptyGroups_flat {u : Text} (noLess : '<' ∉ u) (s : Text) :
    removeEmptyGroups (u ++ s) = u ++ removeEmptyGroups s :=
  Shrink.remove_append_of_idle (Shrink.afterEmptyGroup?_atMarkup.idle noLess s)

theorem removeEmptyGroups_markup {u s : Text} (missing : afterEmptyGroup? ('<' :: (u ++ s)) = none)
    (noLess : '<' ∉ u) : removeEmptyGroups ('<' :: (u ++ s)) = '<' :: (u ++ removeEmptyGroups s) := by
  have idle := Shrink.afterEmptyGroup?_atMarkup.idle_markup (by rw [removal, missing]; rfl) noLess
  exact Shrink.remove_append_of_idle idle

theorem removeEmptyGroups_empty (neat : tag.Neat) (named : tag.name = groupName) (blank : inside.isBlank = true)
    (s : Text) : removeEmptyGroups ((element tag inside next).source ++ s) = removeEmptyGroups (next.source ++ s) := by
  have found : afterEmptyGroup? ((element tag inside next).source ++ s) = some (next.source ++ s) :=
    afterEmptyGroup?_of_isBlank neat named blank s
  obtain ⟨old, whole, member⟩ := Shrink.takes_emptyGroups.exists_append found
  obtain ⟨c, old, rfl⟩ := List.exists_cons_of_ne_nil (List.ne_nil_of_mem member)
  rw [whole, List.cons_append] at found ⊢
  exact Shrink.remove_cons_of_some found (List.suffix_append old _).length_le

/-- What a round makes of a part of the text, whatever comes after it. -/
def LosesGroups (c c' : Content) : Prop := ∀ s, removeEmptyGroups (c.source ++ s) = c'.source ++ removeEmptyGroups s

theorem losesGroups_emptyTag {next' : Content} (neat : (element tag inside next).Neat)
    (filled : ¬ (tag.name = groupName ∧ inside.isBlank = true)) (short : tag.selfClosing = true ∧ inside = .nil)
    (later : next.LosesGroups next') : (element tag inside next).LosesGroups (element tag inside next') := by
  intro s
  have start := afterEmptyGroup?_of_filled neat filled s
  have ends : removeEmptyGroups ('/' :: '>' :: (next.source ++ s)) =
      '/' :: '>' :: (next'.source ++ removeEmptyGroups s) := by
    rw [← later]
    exact removeEmptyGroups_flat (u := ['/', '>']) (by decide) _
  rw [source_element_empty short] at start ⊢
  rw [removeEmptyGroups_markup start neat.1.noLess_inside, ends, source_element_empty short]

/-- A round goes on inside of an element that stays, and after it. -/
theorem losesGroups_element {inside' next' : Content} (neat : (element tag inside next).Neat)
    (filled : ¬ (tag.name = groupName ∧ inside.isBlank = true)) (long : ¬ (tag.selfClosing = true ∧ inside = .nil))
    (within : inside.LosesGroups inside') (later : next.LosesGroups next') :
    (element tag inside next).LosesGroups (element (if inside' = inside then tag else tag.opened) inside' next') := by
  intro s
  have start := afterEmptyGroup?_of_filled neat filled s
  have opens (v : Text) : removeEmptyGroups ('>' :: v) = '>' :: removeEmptyGroups v :=
    removeEmptyGroups_flat (u := ['>']) (by decide) v
  have ends : removeEmptyGroups ('<' :: '/' :: (tag.name ++ '>' :: (next.source ++ s))) =
      '<' :: '/' :: (tag.name ++ '>' :: (next'.source ++ removeEmptyGroups s)) := by
    rw [← later]
    have closes := removeEmptyGroups_markup (u := '/' :: (tag.name ++ ['>'])) (s := next.source ++ s) rfl
      (by simp [neat.1.1.noLess])
    simpa using closes
  rw [source_element_open long] at start ⊢
  rw [removeEmptyGroups_markup start neat.1.noLess_inside, opens, within, ends,
    source_element_open (not_empty_of_deletes long)]
  split
  · rfl
  · rfl

/-- A round keeps to the content, and deletes nothing but empty groups. -/
theorem exists_round {c : Content} (neat : c.Neat) : ∃ c', c.DeletesGroups c' ∧ c'.Neat ∧ c.LosesGroups c' := by
  induction c with
  | nil => exact ⟨.nil, .refl, trivial, fun s => rfl⟩
  | raw source next ih =>
    obtain ⟨next', deletes, neat', round⟩ := ih neat.2
    refine ⟨.raw source next', deletes.raw source, ⟨neat.1, neat'⟩, fun s => ?_⟩
    rw [Content.source, Content.source, List.append_assoc, removeEmptyGroups_flat neat.1, round, List.append_assoc]
  | element tag inside next ihInside ihNext =>
    obtain ⟨next', later, neatNext', roundNext⟩ := ihNext neat.2.2
    by_cases empty : tag.name = groupName ∧ inside.isBlank = true
    · refine ⟨next', .head (.here empty.1 empty.2) later, neatNext', fun s => ?_⟩
      rw [removeEmptyGroups_empty neat.1 empty.1 empty.2, roundNext]
    · by_cases short : tag.selfClosing = true ∧ inside = .nil
      · exact ⟨_, later.next tag inside, ⟨neat.1, neat.2.1, neatNext'⟩, losesGroups_emptyTag neat empty short roundNext⟩
      · obtain ⟨inside', within, neatInside', roundInside⟩ := ihInside neat.2.1
        have neatTag' : (if inside' = inside then tag else tag.opened).Neat := by
          split
          · exact neat.1
          · exact neat.1.opened
        exact ⟨_, within.element later tag, ⟨neatTag', neatInside', neatNext'⟩,
          losesGroups_element neat empty short roundInside roundNext⟩

/-! ## All rounds -/

/-- Where a group can be deleted, one is recognised. -/
theorem DeletesGroup.exists_suffix {c c' : Content} (deletes : c.DeletesGroup c') (neat : c.Neat) (s : Text) :
    ∃ w, w <:+ c.source ++ s ∧ afterEmptyGroup? w ≠ none := by
  induction deletes generalizing s with
  | here named blank =>
    refine ⟨_, List.suffix_refl _, ?_⟩
    rw [afterEmptyGroup?_of_isBlank neat.1 named blank]
    exact Option.some_ne_none _
  | raw _ ih =>
    obtain ⟨w, ends, found⟩ := ih neat.2 s
    rw [Content.source, List.append_assoc]
    exact ⟨w, ends.trans (List.suffix_append _ _), found⟩
  | @inside tag inside inside' next within ih =>
    have long : ¬ (tag.selfClosing = true ∧ inside = .nil) := by
      rintro ⟨-, rfl⟩
      cases within
    rw [source_element_open long]
    obtain ⟨w, ends, found⟩ := ih neat.2.1 ('<' :: '/' :: (tag.name ++ '>' :: (next.source ++ s)))
    refine ⟨w, ends.trans ?_, found⟩
    exact ((List.suffix_cons _ _).trans (List.suffix_append _ _)).trans (List.suffix_cons _ _)
  | next _ ih =>
    obtain ⟨w, ends, found⟩ := ih neat.2.2 s
    rw [Content.source, List.append_assoc]
    exact ⟨w, ends.trans (List.suffix_append _ _), found⟩

/-- Any number of rounds keeps to the content, and to what stands around it. -/
theorem exists_rounds {c : Content} (neat : c.Neat) {before after : Text} (noLess : '<' ∉ before)
    (noLess' : '<' ∉ after) (n : ℕ) : ∃ c', c.DeletesGroups c' ∧ c'.Neat ∧
      removeEmptyGroups^[n] (before ++ (c.source ++ after)) = before ++ (c'.source ++ after) := by
  have last : removeEmptyGroups after = after := by
    have flat := removeEmptyGroups_flat noLess' []
    rw [List.append_nil, show removeEmptyGroups [] = [] from Shrink.remove_nil, List.append_nil] at flat
    exact flat
  induction n with
  | zero => exact ⟨c, .refl, neat, rfl⟩
  | succ n ih =>
    obtain ⟨c', deletes, neat', rounds⟩ := ih
    obtain ⟨c'', deletes', neat'', round⟩ := exists_round neat'
    refine ⟨c'', deletes.trans deletes', neat'', ?_⟩
    rw [Function.iterate_succ_apply', rounds, removeEmptyGroups_flat noLess, round, last]

/-- The rounds end with what is left from the inside out. -/
theorem collapseGroups_source {c : Content} (neat : c.Neat) {before after : Text} (noLess : '<' ∉ before)
    (noLess' : '<' ∉ after) :
    collapseGroups (before ++ (c.source ++ after)) = before ++ (c.pruned.source ++ after) := by
  obtain ⟨n, rounds, -⟩ := Shrink.collapseGroups_eq_iterate (before ++ (c.source ++ after))
  obtain ⟨c', deletes, neat', same⟩ := exists_rounds neat noLess noLess' n
  have absent := Shrink.absent_collapseGroups (before ++ (c.source ++ after))
  rw [rounds, same] at absent
  have none : ∀ c'', ¬ c'.DeletesGroup c'' := by
    intro c'' step
    obtain ⟨w, ends, found⟩ := step.exists_suffix neat' after
    exact found (absent w (ends.trans (List.suffix_append _ _)))
  rw [rounds, same, eq_pruned deletes none]

end Content

theorem Document.Neat.collapseGroups_source {d d' : Document} (neat : d.Neat) (other : d.root.name ≠ groupName)
    (deletes : d.DeletesGroups d') (none : ∀ d'', ¬ d'.DeletesGroup d'') : collapseGroups d.source = d'.source := by
  have flat {sources : List Text} (each : ∀ source ∈ sources, '<' ∉ source) : '<' ∉ sources.flatten := by
    intro member
    obtain ⟨source, listed, member⟩ := List.mem_flatten.mp member
    exact each source listed member
  have root : d.rootContent.Neat := ⟨neat.root, neat.content, trivial⟩
  rw [source_of_deletesGroups other deletes none, source_rootContent, List.append_assoc, List.append_assoc,
    Content.collapseGroups_source root (flat neat.prolog) (flat neat.epilog)]

/--
For every text the rounds end, and nothing is left of what they look for. For every neat document whose root is
no group, empty groups can be deleted until none is left, and wherever that ends, the rounds end with its source.
-/
theorem collapseGroups_deletes_until_none :
    (∀ s : Text,
      (∃ n, collapseGroups s = removeEmptyGroups^[n] s ∧
        ∀ k < n, ¬ Absent afterEmptyGroup? (removeEmptyGroups^[k] s)) ∧
      Absent afterEmptyGroup? (collapseGroups s) ∧
      collapseGroups (collapseGroups s) = collapseGroups s) ∧
    ∀ d : Document, d.Neat → d.root.name ≠ groupName →
      (∃ d', d.DeletesGroups d' ∧ ∀ d'', ¬ d'.DeletesGroup d'') ∧
      ∀ d', d.DeletesGroups d' → (∀ d'', ¬ d'.DeletesGroup d'') → collapseGroups d.source = d'.source := by
  refine ⟨fun s => ?_, fun d neat other => ?_⟩
  · have absent := Shrink.absent_collapseGroups s
    exact ⟨Shrink.collapseGroups_eq_iterate s, absent, Shrink.collapseGroups_of_absent absent⟩
  · exact ⟨Document.exists_deletesGroups other, fun d' deletes none => neat.collapseGroups_source other deletes none⟩

/-- A group that is empty once the one inside of it is deleted, another group, and an element named alike. -/
def nestedGroups : Document :=
  ⟨[['\n']], ⟨⟨"svg".toList, [], false⟩,
    .element ⟨groupName, [⟨['a'], "/>".toList, some ⟨"/>".toList, .double⟩⟩], false⟩
      (.raw [' '] (.element ⟨groupName, [⟨['b'], "\">".toList, some ⟨"\">".toList, .single⟩⟩], true⟩ .nil .nil))
      (.element ⟨"glyph".toList, [⟨['d'], ['<'], none⟩], true⟩ .nil
        (.raw "a&amp;".toList (.element ⟨groupName, [], false⟩ (.raw ['\u00a0'] .nil)
          (.element ⟨groupName, [], false⟩ (.raw "&#32;".toList .nil) .nil))))⟩, []⟩

/-- The document without the empty groups. -/
def keptGroups : Document :=
  ⟨[['\n']], ⟨⟨"svg".toList, [], false⟩,
    .element ⟨"glyph".toList, [⟨['d'], ['<'], none⟩], true⟩ .nil
      (.raw "a&amp;".toList (.element ⟨groupName, [], false⟩ (.raw "&#32;".toList .nil) .nil))⟩, []⟩

theorem collapseGroups_nestedGroups :
    nestedGroups.Neat ∧ nestedGroups.root.name ≠ groupName ∧ nestedGroups.DeletesGroups keptGroups ∧
      (∀ d, ¬ keptGroups.DeletesGroup d) ∧ collapseGroups nestedGroups.source = keptGroups.source := by
  have neat : nestedGroups.Neat := by
    refine ⟨by decide, by decide, ?_, by decide⟩
    simp only [nestedGroups, Content.Neat]
    decide
  have other : nestedGroups.root.name ≠ groupName := by decide
  have deletes : nestedGroups.DeletesGroups keptGroups := by
    refine .head ⟨_, .inside (.raw (.here rfl (by decide))), rfl⟩ ?_
    refine .head ⟨_, .here rfl (by decide), rfl⟩ ?_
    exact .single ⟨_, .next (.raw (.here rfl (by decide))), rfl⟩
  have none : ∀ d, ¬ keptGroups.DeletesGroup d := by
    rintro d ⟨content, step, -⟩
    exact Content.pruned_eq_self_iff.mp (by decide) content step
  exact ⟨neat, other, deletes, none, (collapseGroups_deletes_until_none.2 nestedGroups neat other).2 keptGroups deletes none⟩

end SvgEdit
