import SvgEdit.Proofs.AttributeRemoval

/-!
# Attributes without a value removed

In a tidy tag an attribute is removed if its value is empty and its key consists of parts of names.
In other pieces something may be removed too, but what is left is again such a piece.
-/
namespace SvgEdit
namespace Shrink

/-! ## What is recognised -/

theorem dropWhile_append_cons {p : Char → Bool} {c : Char} (stop : p c = false) (w s : Text) :
    (w ++ c :: s).dropWhile p = w.dropWhile p ++ c :: s := by
  induction w with
  | nil => simp [stop]
  | cons d w ih =>
    cases first : p d <;> simp [first, ih]

theorem afterBlanks?_of_not_isBlank {c : Char} (noBlank : Text.isBlank c = false) (s : Text) :
    afterBlanks? (c :: s) = none := by
  simp [afterBlanks?, noBlank]

/-- Blanks and what follows them. -/
theorem afterBlanks?_of_blanks {w s : Text} (blank : ∀ c ∈ w, Text.isBlank c = true) (nonempty : w ≠ [])
    (stop : ∀ c ∈ s.head?, Text.isBlank c = false) : afterBlanks? (w ++ s) = some s := by
  obtain ⟨c, w, rfl⟩ := List.exists_cons_of_ne_nil nonempty
  have first := blank c List.mem_cons_self
  rw [List.cons_append, afterBlanks?, if_pos first,
    Text.dropWhile_append_of_stop (fun d member => blank d (List.mem_cons_of_mem c member)) stop]

theorem afterEmptyAttribute?_of_not_isBlank {c : Char} (noBlank : Text.isBlank c = false) (s : Text) :
    afterEmptyAttribute? (c :: s) = none := by
  rw [afterEmptyAttribute?, afterBlanks?_of_not_isBlank noBlank]
  rfl

/-- A character that cannot stand in an empty attribute. -/
structure Bars (c : Char) : Prop where
  noBlank : Text.isBlank c = false
  noPart : isNamePart c = false
  noEquals : c ≠ '='

theorem afterBlanks?_append {c : Char} (bars : Bars c) (w s : Text) :
    afterBlanks? (w ++ c :: s) = (afterBlanks? w).map (· ++ c :: s) := by
  cases w with
  | nil => exact afterBlanks?_of_not_isBlank bars.noBlank s
  | cons d w => cases first : Text.isBlank d <;> simp [afterBlanks?, first, dropWhile_append_cons bars.noBlank]

theorem afterName?_append {c : Char} (bars : Bars c) (w s : Text) :
    afterName? (w ++ c :: s) = (afterName? w).map (· ++ c :: s) := by
  cases w with
  | nil => simp [afterName?, bars.noPart]
  | cons d w => cases first : isNamePart d <;> simp [afterName?, first, dropWhile_append_cons bars.noPart]

theorem afterEquals?_append {c : Char} (bars : Bars c) (w s : Text) :
    afterChar? '=' (w ++ c :: s) = (afterChar? '=' w).map (· ++ c :: s) := by
  cases w with
  | nil => simp [afterChar?, bars.noEquals]
  | cons d w => by_cases first : d = '=' <;> simp [afterChar?, first]

theorem suffix_of_afterBlanks? {s rest : Text} (found : afterBlanks? s = some rest) : rest <:+ s := by
  cases s with
  | nil => cases found
  | cons c s =>
    rw [afterBlanks?] at found
    split at found
    · obtain rfl := Option.some.inj found
      exact (List.dropWhile_suffix _).trans (List.suffix_cons c s)
    · cases found

theorem suffix_of_afterName? {s rest : Text} (found : afterName? s = some rest) : rest <:+ s := by
  cases s with
  | nil => cases found
  | cons c s =>
    rw [afterName?] at found
    split at found
    · obtain rfl := Option.some.inj found
      exact (List.dropWhile_suffix _).trans (List.suffix_cons c s)
    · cases found

theorem suffix_of_afterChar? {c : Char} {s rest : Text} (found : afterChar? c s = some rest) : rest <:+ s := by
  cases s with
  | nil => cases found
  | cons d s =>
    rw [afterChar?] at found
    split at found
    · obtain rfl := Option.some.inj found
      exact List.suffix_cons d s
    · cases found

/-- What follows two equal quotes. -/
def afterQuotes? (s : Text) : Option Text :=
  match s with
  | c :: d :: rest => if isQuote c = true ∧ c = d then some rest else none
  | _ => none

theorem afterEmptyAttribute?_eq (s : Text) : afterEmptyAttribute? s = (afterBlanks? s).bind fun s =>
    (afterName? s).bind fun s => (afterChar? '=' (s.dropWhile Text.isBlank)).bind fun s =>
      afterQuotes? (s.dropWhile Text.isBlank) := by
  refine bind_congr fun s => bind_congr fun s => bind_congr fun s => ?_
  unfold afterQuotes?
  split
  · next rest same => rw [same]; rfl
  · next rest same => rw [same]; rfl
  · next noDouble noSingle =>
    split
    · next c d rest same =>
      by_cases both : isQuote c = true ∧ c = d
      · obtain ⟨quote, rfl⟩ := both
        simp only [isQuote, Bool.or_eq_true, decide_eq_true_eq] at quote
        rcases quote with rfl | rfl
        · exact absurd same (noDouble rest)
        · exact absurd same (noSingle rest)
      · rw [if_neg both]
    · rfl

theorem afterQuotes?_append {c : Char} {w s : Text} (quote : isQuote c = true → c ∉ w ∧ s.head? ≠ some c) :
    afterQuotes? (w ++ c :: s) = (afterQuotes? w).map (· ++ c :: s) := by
  match w with
  | [] =>
    cases s with
    | nil => rfl
    | cons d s =>
      have other : ¬ (isQuote c = true ∧ c = d) := fun both => (quote both.1).2 (by rw [both.2]; rfl)
      simp [afterQuotes?, other]
  | [d] =>
    have other : ¬ (isQuote d = true ∧ d = c) := fun both => (quote (both.2 ▸ both.1)).1 (by simp [both.2])
    simp [afterQuotes?, other]
  | d :: e :: w => by_cases both : isQuote d = true ∧ d = e <;> simp [afterQuotes?, both]

theorem suffix_of_afterQuotes? {s rest : Text} (found : afterQuotes? s = some rest) : rest <:+ s := by
  unfold afterQuotes? at found
  split at found
  · split at found
    · obtain rfl := Option.some.inj found
      exact ⟨[_, _], rfl⟩
    · cases found
  · cases found

/-- An empty attribute in a part is the same one where a bar follows the part. -/
theorem afterEmptyAttribute?_append {c : Char} (bars : Bars c) {w s : Text}
    (quote : isQuote c = true → c ∉ w ∧ s.head? ≠ some c) :
    afterEmptyAttribute? (w ++ c :: s) = (afterEmptyAttribute? w).map (· ++ c :: s) := by
  rw [afterEmptyAttribute?_eq, afterEmptyAttribute?_eq, afterBlanks?_append bars]
  cases blanks : afterBlanks? w with
  | none => rfl
  | some w₁ =>
    have part := suffix_of_afterBlanks? blanks
    rw [Option.map_some, Option.bind_some, Option.bind_some, afterName?_append bars]
    cases name : afterName? w₁ with
    | none => rfl
    | some w₂ =>
      have part := (suffix_of_afterName? name).trans part
      rw [Option.map_some, Option.bind_some, Option.bind_some, dropWhile_append_cons bars.noBlank,
        afterEquals?_append bars]
      cases equals : afterChar? '=' (w₂.dropWhile Text.isBlank) with
      | none => rfl
      | some w₃ =>
        have part := (suffix_of_afterChar? equals).trans ((List.dropWhile_suffix _).trans part)
        rw [Option.map_some, Option.bind_some, Option.bind_some, dropWhile_append_cons bars.noBlank]
        refine afterQuotes?_append fun mark => ⟨fun member => (quote mark).1 ?_, (quote mark).2⟩
        exact part.subset ((List.dropWhile_suffix _).subset member)

theorem afterEmptyAttribute?_takesOff : TakesOff afterEmptyAttribute? := by
  intro c s rest found
  rw [afterEmptyAttribute?_eq] at found
  obtain ⟨s₁, blanks, found⟩ := Option.bind_eq_some_iff.mp found
  obtain ⟨s₂, name, found⟩ := Option.bind_eq_some_iff.mp found
  obtain ⟨s₃, equals, found⟩ := Option.bind_eq_some_iff.mp found
  have part : s₁ <:+ s := by
    rw [afterBlanks?] at blanks
    split at blanks
    · obtain rfl := Option.some.inj blanks
      exact List.dropWhile_suffix _
    · cases blanks
  have part := (suffix_of_afterName? name).trans part
  have part := (suffix_of_afterChar? equals).trans ((List.dropWhile_suffix _).trans part)
  exact (suffix_of_afterQuotes? found).trans ((List.dropWhile_suffix _).trans part)

/-- No empty attribute begins with blanks before another character than that of a name. -/
theorem idle_blanks {blanks : Text} (blank : ∀ c ∈ blanks, Text.isBlank c = true) {c : Char} (bars : Bars c ∨ c = '=')
    (s : Text) : Text.Idle (removal afterEmptyAttribute?) blanks (c :: s) := by
  have both : Text.isBlank c = false ∧ isNamePart c = false := by
    rcases bars with bars | rfl
    · exact ⟨bars.noBlank, bars.noPart⟩
    · decide
  refine Text.idle_of_suffixes fun w ends nonempty => ?_
  have found : afterBlanks? (w ++ c :: s) = some (c :: s) :=
    afterBlanks?_of_blanks (fun d member => blank d (ends.subset member)) nonempty fun d head =>
      Option.some.inj head ▸ both.1
  rw [removal, afterEmptyAttribute?_eq, found, Option.bind_some, afterName?, if_neg (by simp [both.2])]
  rfl

theorem idle_noBlanks {u : Text} (noBlank : ∀ c ∈ u, Text.isBlank c = false) (s : Text) :
    Text.Idle (removal afterEmptyAttribute?) u s := by
  refine Text.idle_of_chars (fun c member t => ?_) s
  rw [removal, afterEmptyAttribute?_of_not_isBlank (noBlank c member)]
  rfl

/-- Up to a bar, a part is cleared on its own. -/
theorem removeEmptyAttributes_append {c : Char} (bars : Bars c) (noQuote : isQuote c = false) (u s : Text) :
    removeEmptyAttributes (u ++ c :: s) = removeEmptyAttributes u ++ c :: removeEmptyAttributes s := by
  have suffix : Text.LeavesSuffix (removal afterEmptyAttribute?) := by
    intro s new rest found
    obtain ⟨rest', found', same⟩ := Option.map_eq_some_iff.mp found
    obtain ⟨rfl, rfl⟩ := Prod.mk.inj same
    cases s with
    | nil => cases found'
    | cons d s => exact (afterEmptyAttribute?_takesOff d s _ found').trans (List.suffix_cons d s)
  have parts : Text.Local (removal afterEmptyAttribute?) u (c :: s) := by
    intro w _ _
    have whole := afterEmptyAttribute?_append bars (w := w) (s := s) fun quote => by
      rw [noQuote] at quote
      cases quote
    rw [removal, whole, removal]
    cases afterEmptyAttribute? w <;> rfl
  have apart := parts.substitute suffix
  rw [removeEmptyAttributes, removeEmptyAttributes, removeEmptyAttributes,
    ← remove_cons_of_none (afterEmptyAttribute?_of_not_isBlank bars.noBlank s)]
  exact apart

theorem removeEmptyAttributes_append_of_noBlank {u : Text} (noBlank : ∀ c ∈ u, Text.isBlank c = false) (s : Text) :
    removeEmptyAttributes (u ++ s) = u ++ removeEmptyAttributes s :=
  remove_append_of_idle (idle_noBlanks noBlank s)

theorem mem_of_mem_removeEmptyAttributes {u : Text} {c : Char} (member : c ∈ removeEmptyAttributes u) : c ∈ u :=
  (remove_sublist afterEmptyAttribute?_takesOff u).subset member

theorem filter_dropWhile_of_disjoint {p q : Char → Bool} (disjoint : ∀ c, p c = true → q c = false) (s : Text) :
    (s.dropWhile p).filter q = s.filter q := by
  induction s with
  | nil => rfl
  | cons c s ih => cases first : p c <;> simp [first, disjoint, ih]

theorem isAngle_of_isNamePart (c : Char) (part : isNamePart c = true) : isAngle c = false := by
  rw [isAngle, Bool.or_eq_false_iff, decide_eq_false_iff_not, decide_eq_false_iff_not]
  constructor <;> (rintro rfl; exact absurd part (by decide))

/-! No angle bracket stands in an empty attribute. -/

theorem filter_isAngle_of_afterBlanks? {s rest : Text} (found : afterBlanks? s = some rest) :
    rest.filter isAngle = s.filter isAngle := by
  cases s with
  | nil => cases found
  | cons c s =>
    rw [afterBlanks?] at found
    split at found
    · next blank =>
      obtain rfl := Option.some.inj found
      rw [filter_dropWhile_of_disjoint isAngle_of_isBlank, List.filter_cons_of_neg (by simp [isAngle_of_isBlank c blank])]
    · cases found

theorem filter_isAngle_of_afterName? {s rest : Text} (found : afterName? s = some rest) :
    rest.filter isAngle = s.filter isAngle := by
  cases s with
  | nil => cases found
  | cons c s =>
    rw [afterName?] at found
    split at found
    · next part =>
      obtain rfl := Option.some.inj found
      rw [filter_dropWhile_of_disjoint isAngle_of_isNamePart, List.filter_cons_of_neg (by simp [isAngle_of_isNamePart c part])]
    · cases found

theorem filter_isAngle_of_afterEquals? {s rest : Text} (found : afterChar? '=' s = some rest) :
    rest.filter isAngle = s.filter isAngle := by
  cases s with
  | nil => cases found
  | cons c s =>
    rw [afterChar?] at found
    split at found
    · next same =>
      obtain rfl := Option.some.inj found
      simp [same, isAngle]
    · cases found

theorem filter_isAngle_of_afterQuotes? {s rest : Text} (found : afterQuotes? s = some rest) :
    rest.filter isAngle = s.filter isAngle := by
  unfold afterQuotes? at found
  split at found
  · split at found
    · next both =>
      obtain ⟨quote, rfl⟩ := both
      obtain rfl := Option.some.inj found
      simp only [isQuote, Bool.or_eq_true, decide_eq_true_eq] at quote
      rcases quote with rfl | rfl <;> simp [isAngle]
    · cases found
  · cases found

theorem filter_isAngle_of_afterEmptyAttribute? {s rest : Text} (found : afterEmptyAttribute? s = some rest) :
    rest.filter isAngle = s.filter isAngle := by
  rw [afterEmptyAttribute?_eq] at found
  obtain ⟨s₁, blanks, found⟩ := Option.bind_eq_some_iff.mp found
  obtain ⟨s₂, name, found⟩ := Option.bind_eq_some_iff.mp found
  obtain ⟨s₃, equals, quotes⟩ := Option.bind_eq_some_iff.mp found
  have noBlanks := filter_dropWhile_of_disjoint isAngle_of_isBlank
  calc rest.filter isAngle
    _ = s₃.filter isAngle := (filter_isAngle_of_afterQuotes? quotes).trans (noBlanks s₃)
    _ = s₂.filter isAngle := (filter_isAngle_of_afterEquals? equals).trans (noBlanks s₂)
    _ = s₁.filter isAngle := filter_isAngle_of_afterName? name
    _ = s.filter isAngle := filter_isAngle_of_afterBlanks? blanks

/-- What is left has the same angle brackets. -/
theorem filter_isAngle_removeEmptyAttributes (u : Text) :
    (removeEmptyAttributes u).filter isAngle = u.filter isAngle := by
  refine Text.substitute_induction (fun s t => t.filter isAngle = s.filter isAngle) rfl
    (fun c s t same => by rw [List.filter_cons, List.filter_cons, same]) ?_ u
  intro c s new rest t found same
  obtain ⟨rest', recognised, pair⟩ := Option.map_eq_some_iff.mp found
  obtain ⟨rfl, rfl⟩ := Prod.mk.inj pair
  exact same.trans (filter_isAngle_of_afterEmptyAttribute? recognised)

theorem removeEmptyAttributes_of_noEquals {s : Text} (noEquals : '=' ∉ s) : removeEmptyAttributes s = s := by
  induction s with
  | nil => exact remove_nil
  | cons c s ih =>
    have missing : afterEmptyAttribute? (c :: s) = none := by
      rw [afterEmptyAttribute?_eq]
      by_contra found
      obtain ⟨rest, found⟩ := Option.ne_none_iff_exists'.mp found
      obtain ⟨s₁, blanks, found⟩ := Option.bind_eq_some_iff.mp found
      obtain ⟨s₂, name, found⟩ := Option.bind_eq_some_iff.mp found
      obtain ⟨s₃, equals, -⟩ := Option.bind_eq_some_iff.mp found
      have part := (suffix_of_afterName? name).trans (suffix_of_afterBlanks? blanks)
      have member : '=' ∈ s₂.dropWhile Text.isBlank := by
        cases same : s₂.dropWhile Text.isBlank with
        | nil =>
          rw [same] at equals
          cases equals
        | cons d s =>
          rw [same, afterChar?] at equals
          split at equals
          · next mark => simp [mark]
          · cases equals
      exact noEquals (part.subset ((List.dropWhile_suffix _).subset member))
    rw [removeEmptyAttributes, remove_cons_of_none missing]
    exact congrArg _ (ih fun member => noEquals (List.mem_cons_of_mem c member))

end Shrink

/-! ## In tags -/

/-- An empty value, and a key of parts of names only. -/
def SpelledAttribute.IsEmpty (a : SpelledAttribute) : Prop := a.raw = [] ∧ ∀ c ∈ a.key, Shrink.isNamePart c = true

theorem Spaces.isBlank {s : Text} (h : Spaces s) : ∀ c ∈ s, Text.isBlank c = true :=
  fun c member => Text.isBlank_of_isSpace (h c member)

theorem isNamePart_of_isBlank {c : Char} (blank : Text.isBlank c = true) : Shrink.isNamePart c = false := by
  have code : c.toNat ∈ List.range' 9 5 ++ [0x20, 0x85, 0xA0, 0x1680] ++ List.range' 0x2000 11 ++
      [0x2028, 0x2029, 0x202F, 0x205F, 0x3000] := by
    simp only [Text.isBlank, Bool.or_eq_true, Bool.and_eq_true, decide_eq_true_eq] at blank
    simp only [List.mem_append, List.mem_range'_1, List.mem_cons, List.not_mem_nil]
    omega
  have all : ∀ n ∈ List.range' 9 5 ++ [0x20, 0x85, 0xA0, 0x1680] ++ List.range' 0x2000 11 ++
      [0x2028, 0x2029, 0x202F, 0x205F, 0x3000], Shrink.isNamePart (Char.ofNat n) = false := by decide +kernel
  rw [← Char.ofNat_toNat c]
  exact all _ code

theorem isNamePart_of_isSpace {c : Char} (space : isSpace c = true) : Shrink.isNamePart c = false :=
  isNamePart_of_isBlank (Text.isBlank_of_isSpace space)

theorem QuoteMark.bars (quote : QuoteMark) : Shrink.Bars quote.char := by
  cases quote <;> exact ⟨by decide, by decide, by decide⟩

theorem QuoteMark.isQuote (quote : QuoteMark) : Shrink.isQuote quote.char = true := by cases quote <;> rfl

/-- What follows the key of an attribute up to its value. -/
def SpelledAttribute.assignment (a : SpelledAttribute) (s : Text) : Text :=
  a.between ++ '=' :: (a.after ++ a.quote.char :: (a.raw ++ a.quote.char :: s))

namespace SpelledAttribute

variable {a : SpelledAttribute}

/-- The source, its marks apart. -/
theorem source_eq (a : SpelledAttribute) : a.source = a.before ++ (a.key ++ (a.between ++ (['='] ++ (a.after ++
    ([a.quote.char] ++ (a.raw ++ [a.quote.char])))))) := by simp [source]

theorem source_append_eq (s : Text) : a.source ++ s = a.before ++ (a.key ++ a.assignment s) := by
  simp [source, assignment]

theorem head?_assignment {s : Text} : ∀ c ∈ (a.assignment s).head?, c ∈ a.between ∨ c = '=' := by
  intro c head
  rw [assignment] at head
  cases same : a.between with
  | nil =>
    rw [same] at head
    exact .inr (Option.some.inj head).symm
  | cons d u =>
    rw [same] at head
    exact .inl (Option.some.inj head ▸ List.mem_cons_self)

theorem Proper.head?_assignment (proper : a.Proper) {s : Text} :
    ∀ c ∈ (a.assignment s).head?, isSpace c = true ∨ c = '=' :=
  fun c head => (SpelledAttribute.head?_assignment c head).imp_left (proper.between c)

theorem dropWhile_assignment (blank : ∀ c ∈ a.between, Text.isBlank c = true) (s : Text) :
    (a.assignment s).dropWhile Text.isBlank = '=' :: (a.after ++ a.quote.char :: (a.raw ++ a.quote.char :: s)) :=
  Text.dropWhile_append_of_stop blank fun c head => Option.some.inj head ▸ (by decide)

/-- Set off by blanks of any kind; no blank stands in the key, and the value is closed by its mark. -/
structure Loose (a : SpelledAttribute) : Prop where
  apart : a.before ≠ []
  before : ∀ c ∈ a.before, Text.isBlank c = true
  key : Plain a.key
  noBlank : ∀ c ∈ a.key, Text.isBlank c = false
  between : ∀ c ∈ a.between, Text.isBlank c = true
  after : ∀ c ∈ a.after, Text.isBlank c = true
  closed : a.quote.char ∉ a.raw

theorem Proper.loose (proper : a.Proper) (steady : Steady a.key) : a.Loose :=
  ⟨proper.apart, proper.before.isBlank, proper.key, steady.noBlank, proper.between.isBlank, proper.after.isBlank,
    proper.closed⟩

theorem head?_key {key : Text} (plain : Plain key) {c : Char} {s : Text} (head : c ∈ (key ++ s).head?) : c ∈ key := by
  obtain ⟨d, key, rfl⟩ := List.exists_cons_of_ne_nil plain.1
  exact Option.some.inj head ▸ List.mem_cons_self

/-- Blanks before the key are passed over. -/
theorem Loose.afterBlanks?_key (loose : a.Loose) {w s : Text} (ends : w <:+ a.before) (nonempty : w ≠ []) :
    Shrink.afterBlanks? (w ++ (a.key ++ s)) = some (a.key ++ s) :=
  Shrink.afterBlanks?_of_blanks (fun c member => loose.before c (ends.subset member)) nonempty fun c head =>
    loose.noBlank c (head?_key loose.key head)

theorem Proper.afterName?_key (proper : a.Proper) (named : ∀ c ∈ a.key, Shrink.isNamePart c = true) {s : Text} :
    Shrink.afterName? (a.key ++ a.assignment s) = some (a.assignment s) := by
  obtain ⟨d, key, same⟩ := List.exists_cons_of_ne_nil proper.key.1
  rw [same] at named ⊢
  rw [List.cons_append, Shrink.afterName?, if_pos (named d List.mem_cons_self),
    Text.dropWhile_append_of_stop (fun c member => named c (List.mem_cons_of_mem d member)) fun c head => ?_]
  rcases proper.head?_assignment c head with space | rfl
  · exact isNamePart_of_isSpace space
  · decide

theorem afterEmptyAttribute?_source (proper : a.Proper) (steady : Steady a.key) (empty : a.IsEmpty) (s : Text) :
    Shrink.afterEmptyAttribute? (a.source ++ s) = some s := by
  obtain ⟨noValue, named⟩ := empty
  have value : (a.after ++ a.quote.char :: (a.raw ++ a.quote.char :: s)).dropWhile Text.isBlank =
      a.quote.char :: a.quote.char :: s := by
    rw [noValue]
    exact Text.dropWhile_append_of_stop proper.after.isBlank fun c head => Option.some.inj head ▸ a.quote.bars.noBlank
  rw [Shrink.afterEmptyAttribute?_eq, source_append_eq,
    (proper.loose steady).afterBlanks?_key (List.suffix_refl _) proper.apart, Option.bind_some, proper.afterName?_key named,
    Option.bind_some,
    dropWhile_assignment proper.between.isBlank, Shrink.afterChar?, if_pos rfl, Option.bind_some, value, Shrink.afterQuotes?,
    if_pos ⟨a.quote.isQuote, rfl⟩]

/-- After blanks and the key no empty value follows. -/
theorem Proper.afterKey_eq_none (proper : a.Proper) (steady : Steady a.key) (other : ¬ a.IsEmpty) {s : Text} :
    ((Shrink.afterName? (a.key ++ a.assignment s)).bind fun s =>
      (Shrink.afterChar? '=' (s.dropWhile Text.isBlank)).bind fun s =>
        Shrink.afterQuotes? (s.dropWhile Text.isBlank)) = none := by
  by_cases named : ∀ c ∈ a.key, Shrink.isNamePart c = true
  · have value : a.raw ≠ [] := fun empty => other ⟨empty, named⟩
    obtain ⟨d, raw, same⟩ := List.exists_cons_of_ne_nil value
    have different : a.quote.char ≠ d := fun quote => proper.closed (by rw [same, quote]; exact List.mem_cons_self)
    have rest : (a.after ++ a.quote.char :: (a.raw ++ a.quote.char :: s)).dropWhile Text.isBlank =
        a.quote.char :: (a.raw ++ a.quote.char :: s) :=
      Text.dropWhile_append_of_stop proper.after.isBlank fun c head => Option.some.inj head ▸ a.quote.bars.noBlank
    rw [proper.afterName?_key named, Option.bind_some, dropWhile_assignment proper.between.isBlank, Shrink.afterChar?, if_pos rfl,
      Option.bind_some, rest, same]
    simp [Shrink.afterQuotes?, different]
  · obtain ⟨d, key, same⟩ := List.exists_cons_of_ne_nil proper.key.1
    rw [same, List.cons_append, Shrink.afterName?]
    split
    · next first =>
      have stops : key.dropWhile Shrink.isNamePart ≠ [] := by
        intro nothing
        have all : ∀ c ∈ key, Shrink.isNamePart c = true := List.dropWhile_eq_nil_iff.mp nothing
        refine named fun c member => ?_
        rw [same] at member
        rcases List.mem_cons.mp member with rfl | member
        · exact first
        · exact all c member
      obtain ⟨e, rest, ends⟩ := List.exists_cons_of_ne_nil stops
      have member : e ∈ a.key := by
        rw [same]
        exact List.mem_cons_of_mem d ((List.dropWhile_suffix _).subset (by rw [ends]; exact List.mem_cons_self))
      have noEquals : e ≠ '=' := (isPlainChar_iff.mp (proper.key.2 e member)).2.2.1
      have whole : (key ++ a.assignment s).dropWhile Shrink.isNamePart = e :: (rest ++ a.assignment s) := by
        rw [List.dropWhile_append, ends]
        rfl
      rw [Option.bind_some, whole, List.dropWhile_cons_of_neg (by simp [steady.noBlank e member]), Shrink.afterChar?,
        if_neg noEquals]
      rfl
    · rfl

theorem idle_afterEmptyAttribute? (proper : a.Proper) (steady : Steady a.key)
    (noEmpty : Shrink.removeEmptyAttributes a.raw = a.raw) (other : ¬ a.IsEmpty) {s : Text}
    (follows : ∀ c ∈ s.head?, Shrink.isQuote c = false) :
    Text.Idle (Shrink.removal Shrink.afterEmptyAttribute?) a.source s := by
  have before : Text.Idle (Shrink.removal Shrink.afterEmptyAttribute?) a.before (a.key ++ a.assignment s) := by
    refine Text.idle_of_suffixes fun w ends nonempty => ?_
    rw [Shrink.removal, Shrink.afterEmptyAttribute?_eq, (proper.loose steady).afterBlanks?_key ends nonempty, Option.bind_some,
      Option.map_eq_none_iff]
    exact proper.afterKey_eq_none steady other
  have key := Shrink.idle_noBlanks steady.noBlank (a.assignment s)
  have between := Shrink.idle_blanks proper.between.isBlank (.inr rfl)
    (a.after ++ a.quote.char :: (a.raw ++ a.quote.char :: s))
  have equals := Shrink.idle_noBlanks (u := ['=']) (by decide) (a.after ++ a.quote.char :: (a.raw ++ a.quote.char :: s))
  have after := Shrink.idle_blanks proper.after.isBlank (.inl a.quote.bars) (a.raw ++ a.quote.char :: s)
  have quote (u : Text) : Text.Idle (Shrink.removal Shrink.afterEmptyAttribute?) [a.quote.char] u :=
    Shrink.idle_noBlanks (fun c member => List.mem_singleton.mp member ▸ a.quote.bars.noBlank) u
  have raw : Text.Idle (Shrink.removal Shrink.afterEmptyAttribute?) a.raw (a.quote.char :: s) := by
    refine Text.idle_of_suffixes fun w ends nonempty => ?_
    have whole := Shrink.afterEmptyAttribute?_append a.quote.bars (w := w) (s := s) fun _ =>
      ⟨fun member => proper.closed (ends.subset member), fun head => by
        have mark := follows _ head
        rw [a.quote.isQuote] at mark
        cases mark⟩
    rw [Shrink.removal, whole,
      Shrink.none_of_remove_eq Shrink.afterEmptyAttribute?_takesOff noEmpty w ends nonempty]
    rfl
  rw [source_eq]
  simp only [Text.idle_append_iff]
  refine ⟨by simpa [assignment] using before, by simpa [assignment] using key, by simpa using between,
    by simpa using equals, by simpa using after, quote _, by simpa using raw, quote _⟩

end SpelledAttribute

theorem removesEmptyAttributes : RemovesAttributes Shrink.afterEmptyAttribute? SpelledAttribute.IsEmpty where
  taken _ proper tidy empty s := SpelledAttribute.afterEmptyAttribute?_source proper tidy.key empty s
  kept _ proper tidy other _ follows :=
    SpelledAttribute.idle_afterEmptyAttribute? proper tidy.key tidy.noEmpty other follows
  name _ _ steady s _ := Shrink.idle_noBlanks steady.noBlank s
  blanks _ blank c s close := by
    refine Shrink.idle_blanks blank.isBlank (.inl ?_) s
    rcases close with rfl | rfl <;> exact ⟨by decide, by decide, by decide⟩
  bracket := by
    intro c member s
    refine Shrink.afterEmptyAttribute?_of_not_isBlank ?_ s
    revert c
    decide

/-- Without points and blanks in its names and without equals signs in its values, a proper tag is tidy. -/
theorem SpelledTag.tidy_of_noEquals {t : SpelledTag} (proper : t.Proper)
    (names : ∀ name ∈ t.name :: t.keys, (∀ c ∈ name, Text.isBlank c = false) ∧ '.' ∉ name)
    (keyEnds : ∀ a ∈ t.attributes, ∀ name ∈ Shrink.editorNames, ¬ Shrink.namespaceStart ++ name <:+ a.key.tail)
    (values : ∀ a ∈ t.attributes, Free ['<', '='] a.raw) : t.Tidy := by
  have steady {name : Text} (listed : name ∈ t.name :: t.keys) : Steady name :=
    steady_of_chars (names name listed).1 (names name listed).2
  refine ⟨proper, steady List.mem_cons_self, fun a member => ?_⟩
  have free := values a member
  have noEquals : '=' ∉ a.raw := free.not_mem (by decide)
  exact ⟨steady (List.mem_cons_of_mem _ (List.mem_map_of_mem member)), keyEnds a member, free.not_mem (by decide),
    Shrink.removeEmptyAttributes_of_noEquals noEquals, Shrink.undeclared_quoted noEquals a.quote⟩

/-! ## In other pieces -/

/-- A body is cleared on its own, as nothing that follows a body stands in an empty attribute. -/
theorem Shrink.removeEmptyAttributes_append_of_stops (u : Text) {s : Text} (stops : ∀ c ∈ s.head?, c ∈ bodyStops) :
    removeEmptyAttributes (u ++ s) = removeEmptyAttributes u ++ removeEmptyAttributes s := by
  cases s with
  | nil =>
    have nothing : removeEmptyAttributes [] = [] := remove_nil
    rw [nothing, List.append_nil, List.append_nil]
  | cons c s =>
    have bars : ∀ c ∈ bodyStops, (Text.isBlank c = false ∧ isNamePart c = false ∧ c ≠ '=') ∧ isQuote c = false := by
      decide
    obtain ⟨⟨noBlank, noPart, noEquals⟩, noQuote⟩ := bars c (stops c rfl)
    have alone : removeEmptyAttributes (c :: s) = c :: removeEmptyAttributes s :=
      remove_cons_of_none (afterEmptyAttribute?_of_not_isBlank noBlank s)
    rw [removeEmptyAttributes_append ⟨noBlank, noPart, noEquals⟩ noQuote, alone]

namespace Piece

variable {level : Shrink.Level} {p : Piece}

theorem cleared_of_noEquals (noEquals : '=' ∉ p.body) : p.cleared = p := by
  rw [cleared, Shrink.removeEmptyAttributes_of_noEquals noEquals, withBody_body]

/-- A piece is cleared in its body. -/
theorem Framed.removeEmptyAttributes_source (framed : p.Framed) {s : Text} (ends : p.isRun = true → EndsRuns s) :
    Shrink.removeEmptyAttributes (p.source ++ s) = p.cleared.source ++ Shrink.removeEmptyAttributes s := by
  rw [source_eq_body, cleared, source_withBody, List.append_assoc, List.append_assoc,
    Shrink.removeEmptyAttributes_append_of_noBlank fun c member => (framed.opening c member).1,
    Shrink.removeEmptyAttributes_append_of_stops _ (framed.mem_bodyStops ends),
    Shrink.removeEmptyAttributes_append_of_noBlank fun c member => (framed.closing c member).1]
  simp only [List.append_assoc]

theorem Framed.cleared (framed : p.Framed) : p.cleared.Framed := by
  have part (u : Text) : ∀ c ∈ Shrink.removeEmptyAttributes u, c ∈ u :=
    fun _ => Shrink.mem_of_mem_removeEmptyAttributes
  cases p with
  | text run => exact Free.of_mem framed (part run)
  | reference body => exact Free.of_mem framed (part body)
  | doctype keyword content =>
    obtain ⟨doctype, first, bracketed⟩ := framed
    refine ⟨doctype, first, ?_⟩
    rwa [← bracketed_filter_iff, Shrink.filter_isAngle_removeEmptyAttributes, bracketed_filter_iff]
  | characterData => trivial
  | instruction => trivial
  | _ => exact framed.elim

theorem Clean.cleared (clean : p.Clean level) : p.cleared.Inert level := by
  refine ⟨clean.framed.cleared, clean.closed, fun isSection => clean.untagged ?_⟩
  rwa [Piece.cleared, isSection_withBody] at isSection

theorem isOutside_cleared (outside : p.isOutside = true) : p.cleared.isOutside = true := by
  cases p with
  | text run =>
    have blank : run.all Text.isBlank = true := outside
    rw [List.all_eq_true] at blank
    exact List.all_eq_true.mpr fun c member => blank c (Shrink.mem_of_mem_removeEmptyAttributes member)
  | _ => exact outside

end Piece

theorem removeEmptyAttributes_sweeps {level : Shrink.Level} {styled : Prop} :
    Sweeps (Shrink.removal Shrink.afterEmptyAttribute?) ⟨Piece.Clean level, SpelledTag.Ready styled⟩
      ⟨Piece.Inert level, SpelledTag.Ready styled⟩ SpelledAttribute.IsEmpty fun _ => False :=
  removesEmptyAttributes.sweeps (Shrink.afterEmptyAttribute?_of_not_isBlank (by decide)) fun p clean _ ends =>
    ⟨p.cleared, clean.cleared, Piece.isOutside_cleared, clean.framed.removeEmptyAttributes_source ends⟩

end SvgEdit
