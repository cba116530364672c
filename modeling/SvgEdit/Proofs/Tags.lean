import SvgEdit.Proofs.Spelled
import SvgEdit.Markup.Document

/-!
# Tags read back

A tag whose names are plain is read back from its source: it is written as a spelled tag that is
proper, and its attributes are read with the values and the spelling they are written with.
-/
namespace SvgEdit

/-! ## Attributes as they are written back -/

/-- The way an attribute is written. -/
def Attribute.written (a : Attribute) : WrittenAttribute := ⟨a.name, a.spelling.getD ⟨escape a.value, .double⟩⟩

/-- The attribute with the spelling in which it is written. -/
def Attribute.spelled (a : Attribute) : Attribute := { a with spelling := some a.written.spelling }

/-- A spelling that an attribute has stands for its value. -/
def Attribute.WellSpelled (a : Attribute) : Prop :=
  ∀ spelling ∈ a.spelling, spelling.quote.char ∉ spelling.raw ∧ unescape spelling.raw = .ok a.value

theorem Attribute.source_eq (a : Attribute) :
    a.source = ' ' :: (a.name ++ '=' :: a.written.spelling.quote.char ::
      (a.written.spelling.raw ++ [a.written.spelling.quote.char])) := by
  unfold source written
  cases a.spelling <;> rfl

theorem Attribute.source_spelled (a : Attribute) : a.spelled.source = a.source := by
  rw [source_eq, source_eq]
  rfl

theorem Attribute.WellSpelled.written {a : Attribute} (h : a.WellSpelled) :
    a.written.spelling.quote.char ∉ a.written.spelling.raw ∧ unescape a.written.spelling.raw = .ok a.value := by
  unfold Attribute.written
  cases found : a.spelling with
  | none => exact ⟨not_mem_escape (.inr rfl), unescape_escape a.value⟩
  | some spelling => exact h spelling found

namespace Attributes

/-- The attributes with the spelling in which they are written. -/
def spelled (as : Attributes) : Attributes := as.map Attribute.spelled

/-- Attributes that are read back: names are plain and stand once, spellings stand for the values. -/
structure Writable (as : Attributes) : Prop where
  plain : ∀ a ∈ as, Plain a.name
  once : (as.map (·.name)).Nodup
  spelled : ∀ a ∈ as, a.WellSpelled

theorem source_cons (a : Attribute) (as : Attributes) : source (a :: as) = a.source ++ source as := List.flatMap_cons

theorem source_spelled (as : Attributes) : as.spelled.source = as.source := by
  induction as with
  | nil => rfl
  | cons a as ih =>
    rw [spelled, List.map_cons, ← spelled, source_cons, source_cons, ih, a.source_spelled]

theorem unspelled_spelled (as : Attributes) : as.spelled.unspelled = as.unspelled := by
  rw [unspelled, spelled, List.map_map]
  rfl

end Attributes

theorem Splits.once {seen : List Text} {s : Text} {written : List WrittenAttribute} (h : Splits seen s written)
    (before : seen.Nodup) : (seen ++ written.map (·.key)).Nodup := by
  induction h with
  | done => simpa using before
  | assign blank begins new assigns later ih =>
    have more := ih (List.nodup_middle.mpr (List.nodup_cons.mpr ⟨by simpa using new, by simpa using before⟩))
    simpa using more

theorem Splits.closed {seen : List Text} {s : Text} {written : List WrittenAttribute} (h : Splits seen s written) :
    ∀ w ∈ written, w.spelling.quote.char ∉ w.spelling.raw := by
  induction h with
  | done => exact fun _ member => absurd member List.not_mem_nil
  | assign blank begins new assigns later ih =>
    intro w member
    rcases List.mem_cons.mp member with rfl | member
    · exact assigns.closed
    · exact ih w member

theorem names_of_spells {written : List WrittenAttribute} {as : Attributes} (spells : List.Forall₂ Spells written as) :
    as.map (·.name) = written.map (·.key) := by
  induction spells with
  | nil => rfl
  | cons spell _ ih => rw [List.map_cons, List.map_cons, spell.name, ih]

theorem wellSpelled_of_spells {written : List WrittenAttribute} {as : Attributes}
    (spells : List.Forall₂ Spells written as) (closed : ∀ w ∈ written, w.spelling.quote.char ∉ w.spelling.raw) :
    ∀ a ∈ as, a.WellSpelled := by
  induction spells with
  | nil => exact fun _ member => absurd member List.not_mem_nil
  | cons spell _ ih =>
    intro a member
    rcases List.mem_cons.mp member with rfl | member
    · intro spelling found
      obtain rfl := Option.some.inj (spell.spelling.symm.trans found)
      exact ⟨closed _ List.mem_cons_self, spell.value⟩
    · exact ih (fun w listed => closed w (List.mem_cons_of_mem _ listed)) a member

/-- Attributes that were read are read back, if their names are plain. -/
theorem writable_of_readAttributes {inside : Text} {as : Attributes} (read : readAttributes inside = .ok as)
    (plain : ∀ a ∈ as, Plain a.name) : as.Writable := by
  obtain ⟨written, splits, spells⟩ :=
    (readAttributes_eq_ok_iff_spells fun a member => (plain a member).head?_ne rfl).mp read
  refine ⟨plain, ?_, wellSpelled_of_spells spells splits.closed⟩
  rw [names_of_spells spells]
  simpa using splits.once List.nodup_nil

/-! ## Tags -/

/-- The attribute after one blank, spelled as it is written. -/
def Attribute.spelledOut (a : Attribute) : SpelledAttribute :=
  ⟨[' '], a.name, [], [], a.written.spelling.quote, a.written.spelling.raw⟩

namespace Tag

/-- The tag as it is written. -/
def spelling (t : Tag) : SpelledTag := ⟨t.name, t.attributes.map Attribute.spelledOut, []⟩

/-- What stands between `<` and the end of the tag as it is written. -/
def inside (t : Tag) : Text := t.name ++ t.attributes.source

/-- The tag with the spelling in which it is written. -/
def spelled (t : Tag) : Tag := { t with attributes := t.attributes.spelled }

/-- A tag that is read back. -/
structure Writable (t : Tag) : Prop where
  plain : Plain t.name
  begins : BeginsTag t.name
  attributes : t.attributes.Writable

theorem middle_spelling (t : Tag) : t.spelling.middle = t.attributes.source := by
  rw [SpelledTag.middle, spelling, Attributes.source, List.flatMap_map]
  refine congrArg (List.flatMap · t.attributes) (funext fun a => ?_)
  rw [a.source_eq]
  simp [SpelledAttribute.source, Attribute.spelledOut]

theorem inside_spelling (t : Tag) : t.spelling.inside = t.inside := by
  rw [SpelledTag.inside, middle_spelling]
  exact congrArg (t.name ++ ·) (List.append_nil _)

namespace Writable

theorem proper {t : Tag} (h : t.Writable) : t.spelling.Proper := by
  refine ⟨h.plain, h.begins, fun a member => ?_, fun _ member => absurd member List.not_mem_nil⟩
  obtain ⟨b, listed, rfl⟩ := List.mem_map.mp member
  have none : Spaces [] := fun _ member => absurd member List.not_mem_nil
  have one : Spaces [' '] := by unfold Spaces; decide
  exact ⟨List.cons_ne_nil _ _, one, h.attributes.plain b listed, none, none, (h.attributes.spelled b listed).written.1⟩

theorem readsBack_startTag {t : Tag} (h : t.Writable) : (Piece.startTag t.inside).ReadsBack :=
  t.inside_spelling ▸ h.proper.readsBack_startTag

theorem readsBack_emptyTag {t : Tag} (h : t.Writable) : (Piece.emptyTag t.inside).ReadsBack :=
  t.inside_spelling ▸ h.proper.readsBack_emptyTag

theorem endName {t : Tag} (h : t.Writable) : Piece.endName t.name = t.name := by
  have none : Spaces [] := fun _ member => absurd member List.not_mem_nil
  have whole := h.plain.endName none
  rwa [List.append_nil] at whole

theorem readsBack_endTag {t : Tag} (h : t.Writable) : (Piece.endTag t.name).ReadsBack := by
  have none : Spaces [] := fun _ member => absurd member List.not_mem_nil
  have whole := h.plain.readsBack_endTag none
  rwa [List.append_nil] at whole

theorem readAttributes_inside {t : Tag} (h : t.Writable) : readAttributes t.inside = .ok t.attributes.spelled := by
  have clear : ∀ a ∈ t.attributes.spelled, a.name.head? ≠ some '=' := by
    intro a member
    obtain ⟨b, listed, rfl⟩ := List.mem_map.mp member
    exact (h.attributes.plain b listed).head?_ne rfl
  have once : t.spelling.keys.Nodup := by
    simpa [SpelledTag.keys, spelling, Function.comp_def, Attribute.spelledOut] using h.attributes.once
  rw [← inside_spelling]
  refine (readAttributes_eq_ok_iff_spells clear).mpr ⟨t.spelling.attributes.map SpelledAttribute.written, ?_, ?_⟩
  · rw [h.proper.tagAttributes_inside]
    exact (splits_spelled_iff h.proper.attributes h.proper.blanks List.nodup_nil).mpr ⟨rfl, once⟩
  · rw [spelling, Attributes.spelled, List.map_map, List.forall₂_map_left_iff, List.forall₂_map_right_iff,
      List.forall₂_same]
    exact fun a member => ⟨rfl, rfl, (h.attributes.spelled a member).written.2⟩

theorem tagElement_inside {t : Tag} (h : t.Writable) (selfClosing : Bool) :
    Assembly.tagElement t.inside selfClosing = .ok ⟨⟨t.name, t.attributes.spelled, selfClosing⟩, .nil⟩ := by
  have name := h.proper.tagName_inside
  rw [inside_spelling] at name
  rw [Assembly.tagElement, h.readAttributes_inside, name]
  rfl

end Writable
end Tag
end SvgEdit
