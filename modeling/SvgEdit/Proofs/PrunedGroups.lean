import SvgEdit.Proofs.EmptyGroups

/-!
# Empty groups deleted from the tree

An element named `g` with nothing inside but blanks is an empty group. Deleting one can leave others empty.
However groups are deleted, one at a time and until none is empty, the same tree is left: that where they are
deleted from the inside out.
-/
namespace SvgEdit

/-- The tag, not written as one that closes itself. -/
def Tag.opened (t : Tag) : Tag := { t with selfClosing := false }

namespace Content

/-- Nothing but blank text. -/
def isBlank : Content → Bool
  | nil => true
  | raw source next => Text.isBlankText source && next.isBlank
  | element _ _ _ => false

/--
One empty group is deleted. An element that had something inside is written with an end tag, and stays so when
nothing is left there.
-/
inductive DeletesGroup : Content → Content → Prop
  | here {tag : Tag} {inside next : Content} (named : tag.name = groupName) (blank : inside.isBlank = true) :
      DeletesGroup (element tag inside next) next
  | raw {source : Text} {next next' : Content} (later : DeletesGroup next next') :
      DeletesGroup (raw source next) (raw source next')
  | inside {tag : Tag} {inside inside' next : Content} (within : DeletesGroup inside inside') :
      DeletesGroup (element tag inside next) (element tag.opened inside' next)
  | next {tag : Tag} {inside next next' : Content} (later : DeletesGroup next next') :
      DeletesGroup (element tag inside next) (element tag inside next')

/-- Empty groups are deleted, one after the other. -/
abbrev DeletesGroups : Content → Content → Prop := Relation.ReflTransGen DeletesGroup

/-- How many elements there are. -/
def count : Content → Nat
  | nil => 0
  | raw _ next => next.count
  | element _ inside next => inside.count + next.count + 1

theorem DeletesGroup.count_lt {c c' : Content} (h : c.DeletesGroup c') : c'.count < c.count := by
  induction h with
  | here =>
    rw [count]
    omega
  | raw _ ih => exact ih
  | inside _ ih =>
    rw [count, count]
    omega
  | next _ ih =>
    rw [count, count]
    omega

/-! ## From the inside out -/

/-- The content without groups that are empty once those inside of them are deleted. -/
def pruned : Content → Content
  | nil => nil
  | raw source next => raw source next.pruned
  | element tag inside next =>
    if tag.name = groupName ∧ inside.pruned.isBlank = true then next.pruned
    else element (if inside.pruned = inside then tag else tag.opened) inside.pruned next.pruned

theorem count_pruned_le (c : Content) : c.pruned.count ≤ c.count := by
  induction c with
  | nil => exact Nat.le_refl _
  | raw source next ih => exact ih
  | element tag inside next within later =>
    rw [pruned]
    split
    · rw [count]
      omega
    · rw [count, count]
      omega

theorem pruned_of_isBlank {c : Content} (blank : c.isBlank = true) : c.pruned = c := by
  induction c with
  | nil => rfl
  | raw source next ih =>
    rw [isBlank, Bool.and_eq_true] at blank
    rw [pruned, ih blank.2]
  | element => cases blank

/-- A deletion does not change what is left from the inside out. -/
theorem DeletesGroup.pruned_eq {c c' : Content} (h : c.DeletesGroup c') : c'.pruned = c.pruned := by
  induction h with
  | here named blank => rw [pruned, pruned_of_isBlank blank, if_pos ⟨named, blank⟩]
  | raw _ ih => rw [pruned, pruned, ih]
  | @inside tag inside inside' next within ih =>
    have changes : inside.pruned ≠ inside := by
      intro same
      have fewer := within.count_lt
      have few := count_pruned_le inside'
      rw [ih, same] at few
      omega
    rw [pruned, pruned, ih, if_neg changes]
    have open_ : (if inside.pruned = inside' then tag.opened else tag.opened.opened) = tag.opened := ite_self _
    rw [open_]
    rfl
  | next _ ih => rw [pruned, pruned, ih]

theorem DeletesGroups.pruned_eq {c c' : Content} (h : c.DeletesGroups c') : c'.pruned = c.pruned := by
  induction h with
  | refl => rfl
  | tail _ step ih => rw [step.pruned_eq, ih]

/-! ## One after the other -/

theorem DeletesGroups.raw {next next' : Content} (later : next.DeletesGroups next') (source : Text) :
    (Content.raw source next).DeletesGroups (.raw source next') := later.lift _ fun _ _ => .raw

theorem DeletesGroups.next {next next' : Content} (later : next.DeletesGroups next') (tag : Tag) (inside : Content) :
    (element tag inside next).DeletesGroups (element tag inside next') := later.lift _ fun _ _ => .next

/-- Either nothing is deleted inside of an element, or its tag is not one that closes itself afterwards. -/
theorem DeletesGroups.inside {inside inside' : Content} (within : inside.DeletesGroups inside') (tag : Tag)
    (next : Content) : inside' = inside ∨ (element tag inside next).DeletesGroups (element tag.opened inside' next) := by
  induction within with
  | refl => exact .inl rfl
  | tail _ step ih =>
    right
    rcases ih with rfl | before
    · exact .single (.inside step)
    · exact before.tail (.inside step)

theorem DeletesGroups.element {inside inside' next next' : Content} (within : inside.DeletesGroups inside')
    (later : next.DeletesGroups next') (tag : Tag) :
    (element tag inside next).DeletesGroups
      (Content.element (if inside' = inside then tag else tag.opened) inside' next') := by
  refine (later.next tag inside).trans ?_
  by_cases same : inside' = inside
  · rw [if_pos same, same]
  · rw [if_neg same]
    exact (within.inside tag next').resolve_left same

theorem deletesGroups_pruned (c : Content) : c.DeletesGroups c.pruned := by
  induction c with
  | nil => exact .refl
  | raw source next ih => exact ih.raw source
  | element tag inside next within later =>
    have whole := DeletesGroups.element within later tag
    rw [pruned]
    split
    · next empty =>
      refine whole.tail (.here ?_ empty.2)
      split
      · exact empty.1
      · exact empty.1
    · exact whole

/-- What is left from the inside out is all of the content exactly if no group is empty. -/
theorem pruned_eq_self_iff {c : Content} : c.pruned = c ↔ ∀ c', ¬ c.DeletesGroup c' := by
  constructor
  · intro same c' step
    have fewer := step.count_lt
    have few := count_pruned_le c'
    rw [step.pruned_eq, same] at few
    omega
  · intro none
    rcases c.deletesGroups_pruned.cases_head with same | ⟨c', step, -⟩
    · exact same.symm
    · exact absurd step (none c')

/-- Wherever deleting ends, it leaves what is left from the inside out. -/
theorem eq_pruned {c c' : Content} (deletes : c.DeletesGroups c') (none : ∀ c'', ¬ c'.DeletesGroup c'') :
    c' = c.pruned := by
  rw [← deletes.pruned_eq, pruned_eq_self_iff.mpr none]

end Content

/-! ## Documents -/

namespace Document

/-- The root as content. -/
def rootContent (d : Document) : Content := .element d.root.tag d.root.content .nil

/-- One empty group inside of the root is deleted. -/
def DeletesGroup (d d' : Document) : Prop :=
  ∃ content, d.root.content.DeletesGroup content ∧ d' = { d with root := ⟨d.root.tag.opened, content⟩ }

abbrev DeletesGroups : Document → Document → Prop := Relation.ReflTransGen DeletesGroup

variable {d d' : Document}

theorem deletesGroup_rootContent (h : d.DeletesGroup d') : d.rootContent.DeletesGroup d'.rootContent := by
  obtain ⟨content, step, rfl⟩ := h
  exact .inside step

/-- Where the root is no group, deleting goes on inside of it. -/
theorem exists_of_rootContent {c : Content} (other : d.root.name ≠ groupName) (h : d.rootContent.DeletesGroup c) :
    ∃ d', d.DeletesGroup d' ∧ d'.rootContent = c := by
  generalize whole : d.rootContent = root at h
  cases h with
  | here named =>
    obtain ⟨rfl, -, -⟩ := Content.element.inj whole
    exact absurd named other
  | raw => cases whole
  | inside within =>
    obtain ⟨rfl, rfl, rfl⟩ := Content.element.inj whole
    exact ⟨_, ⟨_, within, rfl⟩, rfl⟩
  | next later =>
    obtain ⟨-, -, rfl⟩ := Content.element.inj whole
    cases later

theorem DeletesGroups.rootContent (h : d.DeletesGroups d') : d.rootContent.DeletesGroups d'.rootContent := by
  induction h with
  | refl => exact .refl
  | tail _ step ih => exact ih.tail (deletesGroup_rootContent step)

/-- The rest of a document stays. -/
theorem DeletesGroups.around (h : d.DeletesGroups d') :
    d'.prolog = d.prolog ∧ d'.epilog = d.epilog ∧ d'.root.name = d.root.name := by
  induction h with
  | refl => exact ⟨rfl, rfl, rfl⟩
  | tail _ step ih =>
    obtain ⟨content, -, rfl⟩ := step
    exact ih

/-- Deleting can go on until no group is empty. -/
theorem exists_deletesGroups (other : d.root.name ≠ groupName) :
    ∃ d', d.DeletesGroups d' ∧ ∀ d'', ¬ d'.DeletesGroup d'' := by
  induction n : d.rootContent.count using Nat.strong_induction_on generalizing d with
  | _ n ih =>
    by_cases more : ∃ d', d.DeletesGroup d'
    · obtain ⟨d', step⟩ := more
      have same := (DeletesGroups.around (.single step)).2.2
      obtain ⟨d'', deletes, none⟩ := ih _ (n ▸ (deletesGroup_rootContent step).count_lt) (same ▸ other) rfl
      exact ⟨d'', .head step deletes, none⟩
    · exact ⟨d, .refl, fun d' step => more ⟨d', step⟩⟩

theorem source_rootContent (d : Document) :
    d.source = d.prolog.flatten ++ d.rootContent.source ++ d.epilog.flatten := by
  rw [source, rootContent, Content.source, Content.source, List.append_nil]
  rfl

/-- Wherever deleting ends, the source is that of what is left from the inside out. -/
theorem source_of_deletesGroups (other : d.root.name ≠ groupName) (deletes : d.DeletesGroups d')
    (none : ∀ d'', ¬ d'.DeletesGroup d'') :
    d'.source = d.prolog.flatten ++ d.rootContent.pruned.source ++ d.epilog.flatten := by
  obtain ⟨prolog, epilog, name⟩ := deletes.around
  have normal : ∀ c, ¬ d'.rootContent.DeletesGroup c := by
    intro c step
    obtain ⟨d'', step, -⟩ := exists_of_rootContent (name ▸ other) step
    exact none d'' step
  rw [source_rootContent, prolog, epilog, Content.eq_pruned deletes.rootContent normal]

end Document
end SvgEdit
