import SvgEdit.Shrink.Styles
import SvgEdit.Proofs.Acceptance
import SvgEdit.Proofs.Spelled

/-!
# Tidy markup

Shrinking looks for markup in a text as such. A text is tidy if what is looked for stands in it as
markup only: not in values, names, texts or sections.
-/
namespace SvgEdit

theorem Text.isBlank_of_isSpace {c : Char} (space : isSpace c = true) : isBlank c = true := by
  simp only [isSpace, Bool.or_eq_true, decide_eq_true_eq] at space
  rcases space with ((rfl | rfl) | rfl) | rfl <;> decide

theorem Text.isBlank_of_isAlphanum {c : Char} (letter : c.isAlphanum = true) : isBlank c = false := by
  simp only [Char.isAlphanum, Char.isAlpha, Char.isUpper, Char.isLower, Char.isDigit, Bool.or_eq_true,
    Bool.and_eq_true, decide_eq_true_eq, UInt32.le_iff_toNat_le] at letter
  have bound : 48 ≤ c.toNat ∧ c.toNat ≤ 122 := by
    simp at letter
    have number : c.toNat = c.val.toNat := rfl
    omega
  simp [isBlank]
  omega

theorem isAlpha_of_isDoctypeKeyword {keyword : Text} (doctype : isDoctypeKeyword keyword = true) :
    ∀ c ∈ keyword, c.isAlpha = true := by
  rw [isDoctypeKeyword, decide_eq_true_eq] at doctype
  intro c member
  have lower := List.mem_map_of_mem (f := Char.toLower) member
  rw [doctype, Char.toLower] at lower
  split at lower
  · next upper =>
    simp only [Char.isAlpha, Char.isUpper, Bool.or_eq_true, decide_eq_true_eq]
    exact .inl upper
  · have letters : ∀ d ∈ "doctype".toList, d.isAlpha = true := by decide
    exact letters c lower

theorem isAlphanum_of_isDoctypeKeyword {keyword : Text} (doctype : isDoctypeKeyword keyword = true) :
    ∀ c ∈ keyword, c.isAlphanum = true := fun c member => by
  rw [Char.isAlphanum, isAlpha_of_isDoctypeKeyword doctype c member, Bool.true_or]

/-- None of the marks stands in the text. -/
def Free (marks s : Text) : Prop := ∀ c ∈ s, c ∉ marks

instance (marks s : Text) : Decidable (Free marks s) := inferInstanceAs (Decidable (∀ c ∈ s, _))

theorem Free.of_mem {marks s t : Text} (h : Free marks s) (part : ∀ c ∈ t, c ∈ s) : Free marks t :=
  fun c member => h c (part c member)

theorem Free.mono {marks fewer s : Text} (h : Free marks s) (part : ∀ c ∈ fewer, c ∈ marks) : Free fewer s :=
  fun c member mark => h c member (part c mark)

theorem Free.append {marks s t : Text} (left : Free marks s) (right : Free marks t) : Free marks (s ++ t) :=
  fun c member => (List.mem_append.mp member).elim (left c) (right c)

theorem Free.not_mem {marks s : Text} (h : Free marks s) {c : Char} (mark : c ∈ marks) : c ∉ s :=
  fun member => h c member mark

/-- No blank and no decimal stands in a name. -/
structure Steady (name : Text) : Prop where
  noBlank : ∀ c ∈ name, Text.isBlank c = false
  noDecimal : ∀ c d : Char, c.isDigit = true → d.isDigit = true → ¬ [c, '.', d] <:+: name

theorem steady_of_chars {name : Text} (noBlank : ∀ c ∈ name, Text.isBlank c = false) (noPoint : '.' ∉ name) :
    Steady name := by
  refine ⟨noBlank, fun c d _ _ inside => noPoint (inside.subset ?_)⟩
  simp

/-! ## Tidy tags -/

namespace Shrink

/-- What a declaration of a name begins with, the quote included. -/
def declarationOf (name : Text) : Text := namespaceStart ++ (name ++ ['=', '"'])

/-- No declaration of an editor's name begins in the text. -/
def Undeclared (u : Text) : Prop := ∀ name ∈ editorNames, ¬ declarationOf name <:+: u

theorem undeclared_of_noEquals {u : Text} (noEquals : '=' ∉ u) : Undeclared u :=
  fun name _ inside => noEquals (inside.subset (by simp [declarationOf]))

/-- Neither does one begin in a value without `=` or with its closing quote. -/
theorem undeclared_quoted {raw : Text} (noEquals : '=' ∉ raw) (quote : QuoteMark) : Undeclared (raw ++ [quote.char]) := by
  have other : '=' ≠ quote.char := by cases quote <;> decide
  exact undeclared_of_noEquals (by simpa [other] using noEquals)

instance (u : Text) : Decidable (Undeclared u) := inferInstanceAs (Decidable (∀ name ∈ editorNames, _))

end Shrink

/-- The key stays as it is, and the value with its closing quote holds nothing that looks like markup. -/
structure SpelledAttribute.Tidy (a : SpelledAttribute) : Prop where
  key : Steady a.key
  keyEnd : ∀ name ∈ Shrink.editorNames, ¬ Shrink.namespaceStart ++ name <:+ a.key.tail
  noLess : '<' ∉ a.raw
  noEmpty : Shrink.removeEmptyAttributes a.raw = a.raw
  undeclared : Shrink.Undeclared (a.raw ++ [a.quote.char])

/-- The key of a style attribute. -/
def styleKey : Text := "style".toList

/-- Whether a declaration may be given as an attribute at all. -/
def isPresentation (d : Shrink.Declaration) : Bool := Shrink.presentationProperties.contains d.property

namespace SpelledTag

structure Tidy (t : SpelledTag) : Prop where
  proper : t.Proper
  name : Steady t.name
  attributes : ∀ a ∈ t.attributes, a.Tidy

/-- No key stands twice, and every value can be unescaped. -/
structure Readable (t : SpelledTag) : Prop where
  once : t.keys.Nodup
  references : ∀ a ∈ t.attributes, References a.raw

/-- A style can be taken apart: no value looks like one, and what is lifted out of it may stand in a tag. -/
structure Stylable (t : SpelledTag) : Prop where
  noStyle : ∀ a ∈ t.attributes, ¬ Shrink.styleStart <:+: a.raw
  noGreater : styleKey ∈ t.keys → ∀ a ∈ t.attributes, '>' ∉ a.raw
  plain : ∀ a ∈ t.attributes, a.key = styleKey → Free ['"', '\'', '&'] a.raw
  once : ∀ a ∈ t.attributes, a.key = styleKey →
    (((Shrink.declarations a.raw).filter isPresentation).map Shrink.Declaration.property).Nodup

/-- A tag that shrinking leaves readable. -/
structure Ready (styled : Prop) (t : SpelledTag) : Prop where
  tidy : t.Tidy
  readable : t.Readable
  stylable : styled → t.Stylable

/-- A tag that is read, with nothing in its names that shrinking rewrites. -/
structure Fit (t : SpelledTag) : Prop where
  proper : t.Proper
  name : Steady t.name
  keys : ∀ a ∈ t.attributes, Steady a.key
  readable : t.Readable

theorem Ready.fit {styled : Prop} {t : SpelledTag} (h : t.Ready styled) : t.Fit :=
  ⟨h.tidy.proper, h.tidy.name, fun a member => (h.tidy.attributes a member).key, h.readable⟩

theorem Fit.readable_inside {t : SpelledTag} (h : t.Fit) : SvgEdit.readable t.inside = true :=
  readable_iff.mpr (h.proper.exists_readAttributes_iff.mpr ⟨h.readable.once, h.readable.references⟩)

/-- A tag stays ready without some of its attributes. -/
theorem Ready.sublist {styled : Prop} {t : SpelledTag} (h : t.Ready styled) {as : List SpelledAttribute}
    (less : as.Sublist t.attributes) : SpelledTag.Ready styled { t with attributes := as } := by
  have keys : (as.map SpelledAttribute.key).Sublist t.keys := less.map _
  refine ⟨⟨⟨h.tidy.proper.name, h.tidy.proper.begins, ?_, h.tidy.proper.blanks⟩, h.tidy.name, ?_⟩, ⟨?_, ?_⟩, ?_⟩
  · exact fun a member => h.tidy.proper.attributes a (less.subset member)
  · exact fun a member => h.tidy.attributes a (less.subset member)
  · exact h.readable.once.sublist keys
  · exact fun a member => h.readable.references a (less.subset member)
  · intro styled
    obtain ⟨noStyle, noGreater, plain, once⟩ := h.stylable styled
    exact ⟨fun a member => noStyle a (less.subset member),
      fun style a member => noGreater (keys.subset style) a (less.subset member),
      fun a member => plain a (less.subset member), fun a member => once a (less.subset member)⟩

end SpelledTag

/-! ## Marks found -/

theorem length_le_of_not_mem {u v r r' : Text} {c : Char} (same : u ++ c :: r = v ++ c :: r') (absent : c ∉ u) :
    u.length ≤ v.length := by
  rcases List.append_eq_append_iff.mp same with ⟨more, rfl, -⟩ | ⟨more, rfl, back⟩
  · simp
  · cases more with
    | nil => simp
    | cons d more =>
      obtain ⟨rfl, -⟩ := List.cons.inj back
      exact absurd (List.mem_append_right v List.mem_cons_self) absent

/-- A mark is found after a text that lacks its first character. -/
theorem Text.cut?_of_lacks_head {c : Char} {before : Text} (absent : c ∉ before) (mark rest : Text) :
    cut? (c :: mark) (before ++ c :: (mark ++ rest)) = some (before, rest) := by
  refine (cut?_eq_some_iff (List.cons_ne_nil c mark)).mpr ⟨by simp, fun b r whole => ?_⟩
  have same : before ++ c :: (mark ++ rest) = b ++ c :: (mark ++ r) := by simpa using whole
  exact length_le_of_not_mem same absent

end SvgEdit
