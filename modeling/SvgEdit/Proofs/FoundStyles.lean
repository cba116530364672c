import SvgEdit.Shrink.Styles
import SvgEdit.Proofs.EmptyAttributes

/-!
# Where a style is found

The first style attribute of a tag is found where it stands, unless a value before it holds what a style
begins with.
-/
namespace SvgEdit

namespace Shrink

/-! ## Looking for a style -/

theorem styleStart_eq : styleStart = styleKey ++ ['='] := by decide

/-- Looking for a style at one place. -/
def styleStep : Text.Step := fun s => (styleAt? s).map fun (_, _, rest) => ([], rest)

theorem exists_of_styleAt? {s : Text} {found : Text × Text × Text} (here : styleAt? s = some found) :
    ∃ q value, isQuote q = true ∧ afterBlanks? s = some (styleStart ++ q :: value) := by
  unfold styleAt? at here
  split at here
  · next q value start =>
    split at here
    · next quote =>
      obtain ⟨rest, blanks, starts⟩ := Option.bind_eq_some_iff.mp start
      exact ⟨q, value, quote, by rw [blanks, Text.dropPrefix?_eq_some_iff.mp starts]⟩
    · cases here
  · cases here

theorem styleStep_eq_none {s : Text}
    (other : ∀ q value, isQuote q = true → afterBlanks? s ≠ some (styleStart ++ q :: value)) : styleStep s = none := by
  rw [styleStep, Option.map_eq_none_iff]
  by_contra found
  obtain ⟨found, here⟩ := Option.ne_none_iff_exists'.mp found
  obtain ⟨q, value, quote, start⟩ := exists_of_styleAt? here
  exact other q value quote start

theorem idle_noBlanks_style {u : Text} (noBlank : ∀ c ∈ u, Text.isBlank c = false) (s : Text) :
    Text.Idle styleStep u s := by
  refine Text.idle_of_chars (fun c member t => styleStep_eq_none fun q value _ => ?_) s
  rw [afterBlanks?_of_not_isBlank (noBlank c member)]
  exact fun nothing => nomatch nothing

theorem idle_blanks_style {blanks : Text} (blank : ∀ c ∈ blanks, Text.isBlank c = true) {c : Char}
    (noBlank : Text.isBlank c = false) (other : c ≠ 's') (s : Text) : Text.Idle styleStep blanks (c :: s) := by
  refine Text.idle_of_suffixes fun w ends nonempty => styleStep_eq_none fun q value _ => ?_
  have stop : ∀ d ∈ (c :: s).head?, Text.isBlank d = false := fun d head => Option.some.inj head ▸ noBlank
  rw [afterBlanks?_of_blanks (fun d member => blank d (ends.subset member)) nonempty stop, styleStart_eq]
  exact fun same => other (List.cons.inj (Option.some.inj same)).1

/-- No style begins in a text that does not hold what styles begin with, up to a bar. -/
theorem idle_styleless {u s : Text} (absent : ¬ styleStart <:+: u) (bars : ∀ c ∈ s.head?, Bars c ∧ c ∉ styleStart) :
    Text.Idle styleStep u s := by
  refine Text.idle_of_suffixes fun w ends _ => styleStep_eq_none fun q value _ same => ?_
  have apart : afterBlanks? (w ++ s) = (afterBlanks? w).map (· ++ s) := by
    cases s with
    | nil => simp
    | cons c s => exact afterBlanks?_append (bars c rfl).1 w s
  rw [apart] at same
  obtain ⟨rest, blanks, same⟩ := Option.map_eq_some_iff.mp same
  have starts := Text.prefix_of_stops (fun c head => (bars c head).2) ⟨q :: value, same.symm⟩
  exact absent (starts.isInfix.trans ((suffix_of_afterBlanks? blanks).trans ends).isInfix)

-- What is found at a place does not matter to the equation, and takes long to unfold.
attribute [local irreducible] styleAt? in
theorem findStyle?_cons (c : Char) (s : Text) : findStyle? (c :: s) =
    match styleAt? (c :: s) with
    | some found => some ([], found)
    | none => if c = '>' then none else (findStyle? s).map fun (before, found) => (c :: before, found) := rfl

theorem findStyle?_of_styleAt? {c : Char} {s : Text} {found : Text × Text × Text} (here : styleAt? (c :: s) = some found) :
    findStyle? (c :: s) = some ([], found) := by
  rw [findStyle?_cons, here]

theorem findStyle?_cons_of_none {c : Char} {s : Text} (missing : styleAt? (c :: s) = none) : findStyle? (c :: s) =
    if c = '>' then none else (findStyle? s).map fun (before, found) => (c :: before, found) := by
  rw [findStyle?_cons, missing]

theorem findStyle?_of_idle {u s : Text} (idle : Text.Idle styleStep u s) (noGreater : '>' ∉ u) :
    findStyle? (u ++ s) = (findStyle? s).map fun (before, found) => (u ++ before, found) := by
  induction u with
  | nil =>
    rw [List.nil_append]
    cases findStyle? s <;> rfl
  | cons c u ih =>
    obtain ⟨missing, later⟩ := idle
    rw [List.mem_cons, not_or] at noGreater
    have missing : styleAt? (c :: (u ++ s)) = none := by simpa [styleStep] using missing
    rw [List.cons_append, findStyle?_cons_of_none missing, if_neg (Ne.symm noGreater.1), ih later noGreater.2]
    cases findStyle? s <;> rfl

/-- Without a style before the end of the tag, none is found. -/
theorem findStyle?_eq_none {u s : Text} (idle : Text.Idle styleStep u ('>' :: s)) :
    findStyle? (u ++ '>' :: s) = none := by
  induction u with
  | nil =>
    have missing : styleAt? ('>' :: s) = none := by
      have close := (idle_noBlanks_style (u := ['>']) (by decide) s).1
      simpa [styleStep] using close
    rw [List.nil_append, findStyle?_cons_of_none missing, if_pos rfl]
  | cons c u ih =>
    obtain ⟨missing, later⟩ := idle
    have missing : styleAt? (c :: (u ++ '>' :: s)) = none := by simpa [styleStep] using missing
    rw [List.cons_append, findStyle?_cons_of_none missing, ih later]
    split <;> rfl

end Shrink

/-! ## Style attributes -/

/-- The style of a tag, its value right after the key. -/
structure SpelledAttribute.IsStyle (a : SpelledAttribute) : Prop where
  key : a.key = styleKey
  between : a.between = []
  after : a.after = []

namespace SpelledAttribute

variable {a : SpelledAttribute}

/-- No style begins in the value. -/
def Styleless (a : SpelledAttribute) : Prop := ∀ s, Text.Idle Shrink.styleStep a.raw (a.quote.char :: s)

theorem styleless_of_not_infix (noStyle : ¬ Shrink.styleStart <:+: a.raw) : a.Styleless := by
  have quote : a.quote.char ∉ Shrink.styleStart := by cases a.quote <;> decide
  exact fun s => Shrink.idle_styleless noStyle fun c head => Option.some.inj head ▸ ⟨a.quote.bars, quote⟩

namespace Loose

theorem key_ne_style (loose : a.Loose) (other : ¬ a.IsStyle) {q : Char} (quote : Shrink.isQuote q = true)
    {value s : Text} : a.key ++ a.assignment s ≠ Shrink.styleStart ++ q :: value := by
  intro same
  rw [Shrink.styleStart_eq] at same
  have whole : (a.key ++ a.between) ++ '=' :: (a.after ++ a.quote.char :: (a.raw ++ a.quote.char :: s)) =
      styleKey ++ '=' :: q :: value := by simpa [assignment] using same
  have noEquals : '=' ∉ a.key ++ a.between := by
    intro member
    rcases List.mem_append.mp member with member | member
    · exact absurd (loose.key.2 _ member) (by decide)
    · exact absurd (loose.between _ member) (by decide)
  obtain ⟨front, back⟩ := append_cons_inj whole noEquals (by decide)
  have between : a.between = [] := by
    refine List.eq_nil_iff_forall_not_mem.mpr fun c member => ?_
    have noBlank : ∀ c ∈ styleKey, Text.isBlank c = false := by decide
    have here := noBlank c (front ▸ List.mem_append_right a.key member)
    rw [loose.between c member] at here
    cases here
  have after : a.after = [] := by
    by_contra nonempty
    obtain ⟨c, u, first⟩ := List.exists_cons_of_ne_nil nonempty
    have blank := loose.after c (by rw [first]; exact List.mem_cons_self)
    rw [first] at back
    obtain ⟨rfl, -⟩ := List.cons.inj back
    simp only [Shrink.isQuote, Bool.or_eq_true, decide_eq_true_eq] at quote
    rcases quote with rfl | rfl <;> exact absurd blank (by decide)
  rw [between, List.append_nil] at front
  exact other ⟨front, between, after⟩

theorem idle_styleAt? (loose : a.Loose) (styleless : a.Styleless) (other : ¬ a.IsStyle) (s : Text) :
    Text.Idle Shrink.styleStep a.source s := by
  have quote : Text.isBlank a.quote.char = false ∧ a.quote.char ≠ 's' := by cases a.quote <;> decide
  have before : Text.Idle Shrink.styleStep a.before (a.key ++ a.assignment s) := by
    refine Text.idle_of_suffixes fun w ends nonempty => Shrink.styleStep_eq_none fun q value mark => ?_
    rw [loose.afterBlanks?_key ends nonempty]
    exact fun same => loose.key_ne_style other mark (Option.some.inj same)
  have key := Shrink.idle_noBlanks_style loose.noBlank (a.assignment s)
  have between := Shrink.idle_blanks_style loose.between (c := '=') (by decide) (by decide)
    (a.after ++ a.quote.char :: (a.raw ++ a.quote.char :: s))
  have equals := Shrink.idle_noBlanks_style (u := ['=']) (by decide)
    (a.after ++ a.quote.char :: (a.raw ++ a.quote.char :: s))
  have after := Shrink.idle_blanks_style loose.after quote.1 quote.2 (a.raw ++ a.quote.char :: s)
  have mark (u : Text) : Text.Idle Shrink.styleStep [a.quote.char] u :=
    Shrink.idle_noBlanks_style (fun c member => List.mem_singleton.mp member ▸ quote.1) u
  rw [source_eq]
  simp only [Text.idle_append_iff]
  refine ⟨by simpa [assignment] using before, by simpa [assignment] using key, by simpa using between,
    by simpa using equals, by simpa using after, mark _, by simpa using styleless s, mark _⟩

theorem not_mem_source (loose : a.Loose) {c : Char} (bracket : c = '<' ∨ c = '>') (absent : c ∉ a.raw) : c ∉ a.source := by
  have noBlank : Text.isBlank c = false := by rcases bracket with rfl | rfl <;> decide
  have blank {u : Text} (blanks : ∀ d ∈ u, Text.isBlank d = true) : c ∉ u := fun member => by
    rw [blanks c member] at noBlank
    cases noBlank
  have key : c ∉ a.key := fun member => by
    have plain := loose.key.2 c member
    rcases bracket with rfl | rfl <;> exact absurd plain (by decide)
  have others : c ≠ '=' ∧ c ≠ a.quote.char := by
    rcases bracket with rfl | rfl <;> cases a.quote <;> decide
  simp [source, blank loose.before, key, blank loose.between, blank loose.after, absent, others]

/-- The style is found where it stands. -/
theorem styleAt?_source (loose : a.Loose) (style : a.IsStyle) (free : Free ['"', '\''] a.raw) {after : Text}
    (noGreater : '>' ∉ after) (s : Text) :
    Shrink.styleAt? (a.source ++ (after ++ '>' :: s)) = some (a.raw, after, s) := by
  have whole : a.source ++ (after ++ '>' :: s) =
      a.before ++ (Shrink.styleStart ++ a.quote.char :: (a.raw ++ a.quote.char :: (after ++ '>' :: s))) := by
    simp [source, style.key, style.between, style.after, Shrink.styleStart_eq]
  have blanks : Shrink.afterBlanks? (a.source ++ (after ++ '>' :: s)) =
      some (Shrink.styleStart ++ a.quote.char :: (a.raw ++ a.quote.char :: (after ++ '>' :: s))) := by
    rw [whole]
    refine Shrink.afterBlanks?_of_blanks loose.before loose.apart fun c head => ?_
    rw [Shrink.styleStart_eq] at head
    obtain rfl := Option.some.inj head
    decide
  have inside : ∀ c ∈ a.raw, (!Shrink.isQuote c) = true := by
    intro c member
    have marks := free c member
    simp only [List.mem_cons, not_or] at marks
    simp [Shrink.isQuote, marks]
  have stop : ∀ c ∈ (a.quote.char :: (after ++ '>' :: s)).head?, (!Shrink.isQuote c) = false := by
    intro c head
    obtain rfl := Option.some.inj head
    simp [a.quote.isQuote]
  have cut := Text.cut?_of_lacks_head noGreater [] s
  rw [List.nil_append] at cut
  unfold Shrink.styleAt?
  rw [blanks, Option.bind_some, Text.dropPrefix?_eq_some_iff.mpr rfl]
  simp only [if_pos a.quote.isQuote]
  rw [Text.dropWhile_append_of_stop inside stop, Text.takeWhile_append_of_stop inside stop]
  simp only [cut, Option.map_some]

end Loose

end SpelledAttribute
end SvgEdit
